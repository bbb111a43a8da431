import CircuitStages.Ascending
import CircuitStages.Circuit.Error

namespace CircuitStages

/-- What a position becomes when the positions `a` and `b` are exchanged. -/
def exchange (a b p : Nat) : Nat := if p = a then b else if p = b then a else p

theorem exchange_exchange (a b p : Nat) : exchange a b (exchange a b p) = p := by
  unfold exchange; split <;> split <;> simp_all

/-- Pairs of a virtual qubit and its physical position, in which no qubit of either side occurs twice. -/
structure Layout where
  pairs : List (Nat × Nat)
  ascending : pairs.Pairwise (fun a b => a.1 < b.1)
  injective : ∀ a ∈ pairs, ∀ b ∈ pairs, a.2 = b.2 → a = b
deriving DecidableEq

namespace Layout

def empty : Layout := ⟨[], List.Pairwise.nil, by simp⟩

/-- Every virtual qubit below `n` at the position of its own number. -/
def trivial (n : Nat) : Layout :=
  ⟨(List.range n).map fun q => (q, q), List.pairwise_map.2 List.pairwise_lt_range, by
    intro a ha b hb h
    obtain ⟨x, _, rfl⟩ := List.mem_map.1 ha
    obtain ⟨y, _, rfl⟩ := List.mem_map.1 hb
    exact congrArg (fun q => (q, q)) h⟩

/-- The pairs that a new pair leaves alone: those with neither its virtual qubit nor its position. -/
def others (l : Layout) (v p : Nat) : List (Nat × Nat) := l.pairs.filter fun e => e.1 != v && e.2 != p

/-- Makes `v` and `p` partners; former partners of either become free. -/
def add (l : Layout) (v p : Nat) : Layout where
  pairs := (l.others v p).filter (·.1 < v) ++ (v, p) :: (l.others v p).filter (v < ·.1)
  ascending := by
    have sorted : (l.others v p).Pairwise (fun a b => a.1 < b.1) := l.ascending.filter _
    refine List.pairwise_append.2 ⟨sorted.filter _, List.pairwise_cons.2 ⟨?_, sorted.filter _⟩, ?_⟩
    · intro b hb
      simpa using (List.mem_filter.1 hb).2
    · intro a ha b hb
      have below : a.1 < v := by simpa using (List.mem_filter.1 ha).2
      rcases List.mem_cons.1 hb with rfl | hb
      · exact below
      · have above : v < b.1 := by simpa using (List.mem_filter.1 hb).2
        omega
  injective := by
    have kept : ∀ a ∈ l.others v p, a ∈ l.pairs ∧ a.2 ≠ p := by
      intro a ha
      have := List.mem_filter.1 ha
      simp_all
    have old := l.injective
    intro a ha b hb h
    simp only [List.mem_append, List.mem_cons, List.mem_filter] at ha hb
    grind

theorem mem_add {l : Layout} {v p : Nat} {e : Nat × Nat} :
    e ∈ (l.add v p).pairs ↔ e = (v, p) ∨ (e ∈ l.pairs ∧ e.1 ≠ v ∧ e.2 ≠ p) := by
  simp only [add, others, List.mem_append, List.mem_cons, List.mem_filter]
  grind

/-- A layout is fixed by its pairs, whatever their order. -/
theorem eq_of_mem_iff {l m : Layout} (h : ∀ e, e ∈ l.pairs ↔ e ∈ m.pairs) : l = m := by
  have hpairs := eq_of_pairwise_lt l.ascending m.ascending h
  cases l; cases m; cases hpairs; rfl

def hasConflicts (pairs : List (Nat × Nat)) : Bool :=
  !(allDistinct (pairs.map (·.1)) && allDistinct (pairs.map (·.2)))

theorem hasConflicts_eq_false_iff (pairs : List (Nat × Nat)) :
    hasConflicts pairs = false ↔ (pairs.map (·.1)).Nodup ∧ (pairs.map (·.2)).Nodup := by
  simp [hasConflicts, allDistinct_iff]

/-- The layout with exactly these pairs, none of which is in conflict with another. -/
def sorted (pairs : List (Nat × Nat)) (h : hasConflicts pairs = false) : Layout where
  pairs := pairs.mergeSort fun a b => a.1 ≤ b.1
  ascending := by
    have distinct := List.pairwise_map.1 ((hasConflicts_eq_false_iff pairs).1 h).1
    have perm := List.mergeSort_perm pairs fun a b => a.1 ≤ b.1
    have weak : (pairs.mergeSort fun a b => a.1 ≤ b.1).Pairwise (fun a b => decide (a.1 ≤ b.1)) :=
      List.pairwise_mergeSort (by intro a b c; simpa using Nat.le_trans)
        (by intro a b; simpa using Nat.le_total a.1 b.1) pairs
    refine weak.imp₂ (fun a b hle hne => ?_) (distinct.perm perm.symm fun hab => hab.symm)
    exact Nat.lt_of_le_of_ne (of_decide_eq_true hle) hne
  injective := by
    intro a ha b hb
    exact eq_of_nodup_map ((hasConflicts_eq_false_iff pairs).1 h).2 (List.mem_mergeSort.1 ha) (List.mem_mergeSort.1 hb)

theorem mem_sorted {pairs : List (Nat × Nat)} {h : hasConflicts pairs = false} {e : Nat × Nat} :
    e ∈ (sorted pairs h).pairs ↔ e ∈ pairs := List.mem_mergeSort

/-- Pairs without conflicts are all kept when they are added in turn. -/
theorem mem_foldl_add {pairs : List (Nat × Nat)} (l : Layout) (hv : (pairs.map (·.1)).Nodup)
    (hp : (pairs.map (·.2)).Nodup) (away : ∀ e ∈ l.pairs, ∀ f ∈ pairs, e.1 ≠ f.1 ∧ e.2 ≠ f.2) {e : Nat × Nat} :
    e ∈ (pairs.foldl (fun l e => l.add e.1 e.2) l).pairs ↔ e ∈ l.pairs ∨ e ∈ pairs := by
  induction pairs generalizing l with
  | nil => simp
  | cons f pairs ih =>
    simp only [List.map_cons, List.nodup_cons, List.mem_map, not_exists, not_and] at hv hp
    rw [List.foldl_cons, ih _ hv.2 hp.2, mem_add]
    · grind
    · intro d hd g hg
      rcases mem_add.1 hd with rfl | hd
      · exact ⟨fun h => hv.1 g hg h.symm, fun h => hp.1 g hg h.symm⟩
      · exact away d hd.1 g (List.mem_cons_of_mem _ hg)

/-- The layout with these pairs added in turn, so that later pairs take over from earlier ones; without conflicts among
them it is enough to sort them. -/
def ofPairs (pairs : List (Nat × Nat)) : Layout :=
  if h : hasConflicts pairs = false then sorted pairs h else pairs.foldl (fun l e => l.add e.1 e.2) empty

theorem ofPairs_eq_foldl (pairs : List (Nat × Nat)) :
    ofPairs pairs = pairs.foldl (fun l e => l.add e.1 e.2) empty := by
  unfold ofPairs
  split
  · rename_i h
    have distinct := (hasConflicts_eq_false_iff pairs).1 h
    refine eq_of_mem_iff fun e => ?_
    rw [mem_sorted, mem_foldl_add empty distinct.1 distinct.2 (by simp [empty])]
    simp [empty]
  · rfl

def physical? (l : Layout) (v : Nat) : Option Nat := (l.pairs.find? (·.1 == v)).map (·.2)

def virtual? (l : Layout) (p : Nat) : Option Nat := (l.pairs.find? (·.2 == p)).map (·.1)

/-- Moves every virtual qubit along an exchange of two positions. -/
def swap (l : Layout) (a b : Nat) : Layout where
  pairs := l.pairs.map fun e => (e.1, exchange a b e.2)
  ascending := List.pairwise_map.2 l.ascending
  injective := by
    intro x hx y hy h
    obtain ⟨e, he, rfl⟩ := List.mem_map.1 hx
    obtain ⟨f, hf, rfl⟩ := List.mem_map.1 hy
    have back := congrArg (exchange a b) h
    simp only [exchange_exchange] at back
    rw [l.injective e he f hf back]

def size (l : Layout) : Nat := l.pairs.length

def isEmpty (l : Layout) : Bool := l.pairs.isEmpty

def maxPhysical? (l : Layout) : Option Nat := (l.pairs.map (·.2)).max?

/-- The layout with these pairs, if none of them is in conflict with another. -/
def ofDistinct (pairs : List (Nat × Nat)) : Except CircuitError Layout :=
  if hasConflicts pairs then .error (.layoutMismatch .mappedTwice) else .ok (ofPairs pairs)

end Layout

end CircuitStages
