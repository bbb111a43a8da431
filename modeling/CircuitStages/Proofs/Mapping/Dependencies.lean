import CircuitStages.Mapping.Dependencies
import Mathlib.Data.List.Chain
import Mathlib.Data.List.FinRange
import Mathlib.Data.List.Nodup
import Mathlib.Data.List.Perm.Basic

namespace CircuitStages

variable {α : Type}

/-- Whether two instructions have a qubit or a classical bit in common. -/
def SharesOperand (a b : Instruction α) : Prop := (∃ q ∈ a.qubits, q ∈ b.qubits) ∨ ∃ k ∈ a.clbits, k ∈ b.clbits

theorem SharesOperand.symm {a b : Instruction α} (h : SharesOperand a b) : SharesOperand b a :=
  h.imp (fun ⟨q, ha, hb⟩ => ⟨q, hb, ha⟩) (fun ⟨k, ha, hb⟩ => ⟨k, hb, ha⟩)

/-- The same instructions in an order that only exchanges such as have no operand in common. -/
def IsReordering (is js : List (Instruction α)) : Prop :=
  ∃ order : List (Fin is.length), order.Perm (List.finRange is.length) ∧ js = order.map is.get ∧
    order.Pairwise fun a b => SharesOperand (is.get a) (is.get b) → a < b

theorem IsReordering.perm {is js : List (Instruction α)} (h : IsReordering is js) : js.Perm is := by
  obtain ⟨order, hperm, rfl, -⟩ := h
  have hmap := hperm.map is.get
  rwa [List.map_get_finRange] at hmap

/-- Whether an instruction waits for another one, both given by number. -/
def WaitsFor (is : List (Instruction α)) (k p : Nat) : Prop := p ∈ (Dependencies.ofInstructions is).before.getD k []

/-- The instructions with their numbers, last one first. -/
def numbered (is : List (Instruction α)) : List (Nat × Instruction α) := (is.zipIdx.map fun e => (e.2, e.1)).reverse

theorem numbered_concat (is : List (Instruction α)) (i : Instruction α) :
    numbered (is ++ [i]) = (is.length, i) :: numbered is := by
  simp [numbered, List.zipIdx_append]

theorem length_numbered (is : List (Instruction α)) : (numbered is).length = is.length := by
  simp [numbered]

theorem mem_numbered {is : List (Instruction α)} {k : Nat} {i : Instruction α} :
    (k, i) ∈ numbered is ↔ is[k]? = some i := by
  simp only [numbered, List.mem_reverse, List.mem_map, Prod.mk.injEq, Prod.exists]
  constructor
  · rintro ⟨j, l, hmem, rfl, rfl⟩
    exact List.mk_mem_zipIdx_iff_getElem?.mp hmem
  · intro h
    exact ⟨i, k, List.mk_mem_zipIdx_iff_getElem?.mpr h, rfl, rfl⟩

theorem pairwise_numbered (is : List (Instruction α)) : (numbered is).Pairwise fun d e => e.1 < d.1 := by
  rw [numbered, List.pairwise_reverse, List.pairwise_map]
  have h : (is.zipIdx.map Prod.snd).Pairwise (· < ·) := by
    rw [List.zipIdx_map_snd]
    exact List.pairwise_lt_range'
  exact List.pairwise_map.mp h

theorem getElem?_predecessorsFrom (pre rest : List (Instruction α)) (k : Nat) :
    (predecessorsFrom (numbered pre) rest)[k]? =
      rest[k]?.map fun i => predecessors (numbered (pre ++ rest.take k)) (pre.length + k) i := by
  induction rest generalizing pre k with
  | nil => simp [predecessorsFrom]
  | cons i rest ih =>
    cases k with
    | zero => simp [predecessorsFrom, length_numbered]
    | succ k =>
      have hnext := ih (pre ++ [i]) k
      rw [numbered_concat] at hnext
      simp only [predecessorsFrom, length_numbered, List.getElem?_cons_succ, List.take_succ_cons]
      rw [hnext, List.append_assoc, List.length_append, List.length_singleton, Nat.add_assoc, Nat.add_comm 1 k]
      rfl

theorem waitsFor_iff {is : List (Instruction α)} {k p : Nat} {i : Instruction α} (hi : is[k]? = some i) :
    WaitsFor is k p ↔ p ∈ predecessors (numbered (is.take k)) k i := by
  have h := getElem?_predecessorsFrom [] is k
  rw [hi, Option.map_some, List.nil_append, List.length_nil, Nat.zero_add] at h
  have hrow : (Dependencies.ofInstructions is).before.getD k [] = predecessors (numbered (is.take k)) k i := by
    rw [Array.getD_eq_getD_getElem?]
    change ((predecessorsFrom [] is).toArray[k]?).getD [] = _
    rw [List.getElem?_toArray]
    exact congrArg (Option.getD · []) h
  rw [WaitsFor, hrow]

theorem mem_predecessors {earlier : List (Nat × Instruction α)} {k p : Nat} {i : Instruction α} :
    p ∈ predecessors earlier k i ↔
      (∃ q ∈ i.qubits, ∃ e, earlier.find? (fun e => e.2.qubits.contains q) = some e ∧ e.1 = p) ∨
      (∃ b ∈ i.clbits, ∃ e, earlier.find? (fun e => e.2.clbits.contains b) = some e ∧ e.1 = p) ∨
      (¬ i.clbits.Nodup ∧ p = k) := by
  simp only [predecessors, List.mem_append, List.mem_filterMap, Option.map_eq_some_iff, or_assoc]
  split <;> simp_all

/-- The last earlier instruction with some property comes no earlier than any other one with it. -/
theorem le_of_find?_numbered {is : List (Instruction α)} {j k : Nat} {x : Instruction α} (uses : Instruction α → Bool)
    (hx : is[j]? = some x) (hj : j < k) (hu : uses x) :
    ∃ p y, (numbered (is.take k)).find? (fun e => uses e.2) = some (p, y) ∧ j ≤ p ∧ p < k ∧
      is[p]? = some y ∧ uses y := by
  have hmem : (j, x) ∈ numbered (is.take k) := mem_numbered.mpr (by rw [List.getElem?_take_of_lt hj, hx])
  cases hf : (numbered (is.take k)).find? (fun e => uses e.2) with
  | none => exact absurd hu (List.find?_eq_none.mp hf _ hmem)
  | some e =>
    obtain ⟨p, y⟩ := e
    obtain ⟨huy, later, earlier, heq, hlater⟩ := List.find?_eq_some_iff_append.mp hf
    have hp := mem_numbered.mp (List.mem_of_find?_eq_some hf)
    have hpk : p < k := by
      by_contra hge
      rw [List.getElem?_take_eq_none (Nat.le_of_not_lt hge)] at hp
      cases hp
    rw [List.getElem?_take_of_lt hpk] at hp
    refine ⟨p, y, rfl, ?_, hpk, hp, huy⟩
    rw [heq] at hmem
    rcases List.mem_append.mp hmem with hin | hin
    · simpa [hu] using hlater _ hin
    · have hdesc := pairwise_numbered (is.take k)
      rw [heq] at hdesc
      rcases List.mem_cons.mp hin with he | hin
      · cases he
        exact Nat.le_refl _
      · exact Nat.le_of_lt ((List.pairwise_cons.mp (List.pairwise_append.mp hdesc).2.1).1 _ hin)

theorem lt_of_find?_numbered {is : List (Instruction α)} {k : Nat} {e : Nat × Instruction α}
    (uses : Instruction α → Bool) (h : (numbered (is.take k)).find? (fun e => uses e.2) = some e) : e.1 < k := by
  have hp := mem_numbered.mp (List.mem_of_find?_eq_some h)
  by_contra hge
  rw [List.getElem?_take_eq_none (Nat.le_of_not_lt hge)] at hp
  cases hp

/-- An instruction waits for earlier ones, unless it lists a classical bit twice. -/
theorem lt_of_waitsFor {is : List (Instruction α)} {k p : Nat} {i : Instruction α} (hi : is[k]? = some i)
    (h : WaitsFor is k p) : p < k ∨ (p = k ∧ ¬ i.clbits.Nodup) := by
  rcases mem_predecessors.mp ((waitsFor_iff hi).mp h) with ⟨q, _, e, he, rfl⟩ | ⟨b, _, e, he, rfl⟩ | ⟨hnd, rfl⟩
  · exact .inl (lt_of_find?_numbered (·.qubits.contains q) he)
  · exact .inl (lt_of_find?_numbered (·.clbits.contains b) he)
  · exact .inr ⟨rfl, hnd⟩

theorem waitsFor_self {is : List (Instruction α)} {k : Nat} {i : Instruction α} (hi : is[k]? = some i)
    (hnd : ¬ i.clbits.Nodup) : WaitsFor is k k :=
  (waitsFor_iff hi).mpr (mem_predecessors.mpr (.inr (.inr ⟨hnd, rfl⟩)))

/-- Of two instructions with a common operand the later one waits for the earlier one, or for one in between that has
the operand as well. -/
theorem exists_waitsFor {is : List (Instruction α)} {j k : Nat} {x i : Instruction α} (hx : is[j]? = some x)
    (hi : is[k]? = some i) (hjk : j < k) (hshare : SharesOperand x i) :
    ∃ p y, WaitsFor is k p ∧ j ≤ p ∧ p < k ∧ is[p]? = some y ∧ SharesOperand x y := by
  rcases hshare with ⟨q, hqx, hqi⟩ | ⟨b, hbx, hbi⟩
  · obtain ⟨p, y, hfind, hjp, hpk, hy, huy⟩ :=
      le_of_find?_numbered (·.qubits.contains q) hx hjk (List.contains_iff_mem.mpr hqx)
    have hwait : p ∈ predecessors (numbered (is.take k)) k i := mem_predecessors.mpr (.inl ⟨q, hqi, _, hfind, rfl⟩)
    exact ⟨p, y, (waitsFor_iff hi).mpr hwait, hjp, hpk, hy, .inl ⟨q, hqx, List.contains_iff_mem.mp huy⟩⟩
  · obtain ⟨p, y, hfind, hjp, hpk, hy, huy⟩ :=
      le_of_find?_numbered (·.clbits.contains b) hx hjk (List.contains_iff_mem.mpr hbx)
    have hwait : p ∈ predecessors (numbered (is.take k)) k i :=
      mem_predecessors.mpr (.inr (.inl ⟨b, hbi, _, hfind, rfl⟩))
    exact ⟨p, y, (waitsFor_iff hi).mpr hwait, hjp, hpk, hy, .inr ⟨b, hbx, List.contains_iff_mem.mp huy⟩⟩

/-- An order in which every number comes after those that it waits for. -/
def Respects (is : List (Instruction α)) (order : List Nat) : Prop :=
  ∀ before k after, order = before ++ k :: after → ∀ p, WaitsFor is k p → p ∈ before

theorem Respects.concat {is : List (Instruction α)} {order : List Nat} {k : Nat} (h : Respects is order)
    (hk : ∀ p, WaitsFor is k p → p ∈ order) : Respects is (order ++ [k]) := by
  intro before j after heq p hp
  rcases List.append_eq_append_iff.mp heq with ⟨mid, rfl, hmid⟩ | ⟨mid, rfl, hmid⟩
  · rcases List.cons_eq_append_iff.mp hmid with ⟨rfl, hjk⟩ | ⟨_, -, hnil⟩
    · cases hjk
      rw [List.append_nil]
      exact hk p hp
    · simp at hnil
  · rcases List.cons_eq_append_iff.mp hmid with ⟨rfl, hjk⟩ | ⟨rest, rfl, -⟩
    · cases hjk
      simpa using hk p hp
    · exact h before j rest rfl p hp

/-- Waiting for the last user of each operand means waiting for all of them. -/
theorem Respects.mem_before {is : List (Instruction α)} {order before after : List Nat} {j k : Nat}
    {x i : Instruction α} (h : Respects is order) (heq : order = before ++ k :: after) (hx : is[j]? = some x)
    (hi : is[k]? = some i) (hjk : j < k) (hshare : SharesOperand x i) : j ∈ before := by
  induction k using Nat.strong_induction_on generalizing before after i with
  | h k ih =>
    obtain ⟨p, y, hwait, hjp, hpk, hy, hxy⟩ := exists_waitsFor hx hi hjk hshare
    have hp := h before k after heq p hwait
    rcases Nat.eq_or_lt_of_le hjp with rfl | hjp
    · exact hp
    · obtain ⟨first, rest, rfl⟩ := List.append_of_mem hp
      have hsplit : order = first ++ p :: (rest ++ k :: after) := by simp [heq]
      exact List.mem_append_left _ (ih p hpk hsplit hy hjp hxy)

theorem isReordering_of_respects {is : List (Instruction α)} {order : List Nat} (h : Respects is order)
    (hperm : order.Perm (List.range is.length)) : IsReordering is (order.filterMap (is[·]?)) := by
  have hnd : order.Nodup := hperm.nodup_iff.mpr List.nodup_range
  have hlt : ∀ k ∈ order, k < is.length := fun k hk => List.mem_range.mp (hperm.mem_iff.mp hk)
  refine ⟨order.pmap Fin.mk hlt, ?_, ?_, ?_⟩
  · refine (List.perm_ext_iff_of_nodup (hnd.pmap fun _ _ _ _ => Fin.val_eq_of_eq) (List.nodup_finRange _)).mpr ?_
    intro k
    simp only [List.mem_finRange, iff_true]
    exact List.mem_pmap.mpr ⟨k, hperm.mem_iff.mpr (List.mem_range.mpr k.isLt), rfl⟩
  · rw [List.map_pmap]
    clear hperm hnd h
    induction order with
    | nil => rfl
    | cons k order ih =>
      have hk := hlt k List.mem_cons_self
      rw [List.filterMap_cons_some (List.getElem?_eq_getElem hk), ih]
      rfl
  · rw [List.pairwise_pmap, List.pairwise_iff_forall_sublist]
    intro a b hab ha hb hshare
    obtain ⟨front, back, rfl, hafront, hbback⟩ := List.cons_sublist_iff.mp hab
    have hbback : b ∈ back := List.singleton_sublist.mp hbback
    have hdisjoint := List.disjoint_of_nodup_append hnd
    by_contra hnot
    have hne : b ≠ a := fun he => hdisjoint hafront (he ▸ hbback)
    have hba : b < a := Nat.lt_of_le_of_ne (Nat.le_of_not_lt hnot) hne
    obtain ⟨before, mid, rfl⟩ := List.append_of_mem hafront
    have hsplit : before ++ a :: mid ++ back = before ++ a :: (mid ++ back) := by simp
    have hbefore : b ∈ before :=
      h.mem_before hsplit (List.getElem?_eq_getElem hb) (List.getElem?_eq_getElem ha) hba hshare.symm
    exact hdisjoint (List.mem_append_left _ hbefore) hbback

end CircuitStages
