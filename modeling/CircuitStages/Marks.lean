namespace CircuitStages

/-- Marks the members of a list as well, as far as there is room for them. -/
def mark (marked : Array Bool) (members : List Nat) : Array Bool :=
  members.foldl (fun marked k => marked.setIfInBounds k true) marked

theorem size_mark (marked : Array Bool) (members : List Nat) : (mark marked members).size = marked.size := by
  induction members generalizing marked with
  | nil => rfl
  | cons m members ih => exact (ih _).trans Array.size_setIfInBounds

theorem getD_mark (marked : Array Bool) (members : List Nat) (k : Nat) :
    (mark marked members).getD k false = (marked.getD k false || (decide (k < marked.size) && members.contains k)) := by
  induction members generalizing marked with
  | nil => simp [mark]
  | cons m members ih =>
    refine (ih _).trans ?_
    simp only [Array.getD_eq_getD_getElem?, Array.getElem?_setIfInBounds, Array.size_setIfInBounds,
      List.contains_cons]
    grind

/-- Whether each number below `size` is in the list. -/
def marks (size : Nat) (members : List Nat) : Array Bool := mark (Array.replicate size false) members

theorem size_marks (size : Nat) (members : List Nat) : (marks size members).size = size :=
  (size_mark _ _).trans Array.size_replicate

theorem getD_marks (size : Nat) (members : List Nat) (k : Nat) :
    (marks size members).getD k false = (decide (k < size) && members.contains k) := by
  rw [marks, getD_mark, Array.getD_eq_getD_getElem?, Array.getElem?_replicate, Array.size_replicate]
  split <;> simp_all

/-- The numbers below `n` that are not in the list, in ascending order. -/
def absentBelow (n : Nat) (members : List Nat) : List Nat :=
  let marked := marks n members
  (List.range n).filter fun k => !marked.getD k false

theorem mem_absentBelow {n : Nat} {members : List Nat} {k : Nat} :
    k ∈ absentBelow n members ↔ k < n ∧ k ∉ members := by
  simp only [absentBelow, List.mem_filter, List.mem_range, getD_marks]
  grind

theorem pairwise_absentBelow (n : Nat) (members : List Nat) : (absentBelow n members).Pairwise (· < ·) :=
  List.pairwise_lt_range.filter _

end CircuitStages
