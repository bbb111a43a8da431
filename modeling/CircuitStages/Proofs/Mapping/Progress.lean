import CircuitStages.Mapping.Lookahead
import CircuitStages.Proofs.Mapping.Dependencies
import CircuitStages.Proofs.Mapping.Replay

namespace CircuitStages

variable {α : Type}

/-- Routing in progress: the instructions numbered `order` have been put out, in this order, and those numbered
`waiting` have not. -/
inductive Reaches (m : CouplingMap) (n : Nat) (is : List (Instruction α)) : RouteState α → List Nat → List Nat → Prop
  | start : Reaches m n is (.start n) [] (List.range is.length)
  | emit {s : RouteState α} {order waiting : List Nat} {k : Nat} {i : Instruction α} :
      Reaches m n is s order waiting → k ∈ waiting → is[k]? = some i → (∀ p, WaitsFor is k p → p ∉ waiting) →
      s.blocked? m i = none → Reaches m n is (s.emit i) (order ++ [k]) (waiting.erase k)
  | swap {s : RouteState α} {order waiting : List Nat} {a b : Nat} :
      Reaches m n is s order waiting → m.isLinked a b → Reaches m n is (s.swap a b) order waiting

namespace Reaches

variable {m : CouplingMap} {n : Nat} {is : List (Instruction α)} {s : RouteState α} {order waiting : List Nat}

theorem perm (h : Reaches m n is s order waiting) : (order ++ waiting).Perm (List.range is.length) := by
  induction h with
  | start => exact List.Perm.refl _
  | emit _ hk _ _ _ ih =>
    rw [List.append_assoc, List.singleton_append]
    exact ((List.perm_cons_erase hk).symm.append_left _).trans ih
  | swap _ _ ih => exact ih

theorem nodup_waiting (h : Reaches m n is s order waiting) : waiting.Nodup :=
  (List.nodup_append.mp (h.perm.nodup_iff.mpr List.nodup_range)).2.1

theorem lt_of_mem_waiting (h : Reaches m n is s order waiting) {k : Nat} (hk : k ∈ waiting) : k < is.length :=
  List.mem_range.mp (h.perm.mem_iff.mp (List.mem_append_right _ hk))

theorem tracks (h : Reaches m n is s order waiting) : s.Tracks n := by
  induction h with
  | start => exact RouteState.tracks_start n
  | emit _ _ _ _ _ ih => exact ih.emit _
  | swap _ _ ih => exact ih.swap _ _

/-- All gates on two qubits that have been put out are on linked positions. -/
theorem adjacent (h : Reaches m n is s order waiting) : s.Adjacent m := by
  induction h with
  | start => exact RouteState.adjacent_start m n
  | emit _ _ _ _ hfree ih => exact ih.emit hfree
  | swap _ hab ih => exact ih.swap hab

theorem emitted (h : Reaches m n is s order waiting) (hlt : ∀ i ∈ is, ∀ q ∈ i.qubits, q < n) :
    s.emitted = order.filterMap (is[·]?) := by
  induction h with
  | start => rfl
  | emit h hk hi _ _ ih =>
    rw [h.tracks.emitted_emit _ (hlt _ (List.mem_of_getElem? hi)), ih, List.filterMap_append,
      List.filterMap_cons_some hi]
    rfl
  | swap _ _ ih => rw [RouteState.emitted_swap, ih]

theorem respects (h : Reaches m n is s order waiting) : Respects is order := by
  induction h with
  | start =>
    intro before k after heq
    simp at heq
  | @emit s order waiting k i h hk hi hfirst _ ih =>
    refine ih.concat fun p hp => ?_
    have hle : p ≤ k := by
      rcases lt_of_waitsFor hi hp with hlt | ⟨heq, -⟩
      · exact Nat.le_of_lt hlt
      · exact Nat.le_of_eq heq
    have hlt : p < is.length := hle.trans_lt (h.lt_of_mem_waiting hk)
    rcases List.mem_append.mp (h.perm.mem_iff.mpr (List.mem_range.mpr hlt)) with hin | hin
    · exact hin
    · exact absurd hin (hfirst p hp)
  | swap _ _ ih => exact ih

/-- An instruction that lists a classical bit twice is never put out. -/
theorem clbits_nodup (h : Reaches m n is s order waiting) :
    ∀ st ∈ s.steps, st.toInstruction.clbits.Nodup := by
  induction h with
  | start => simp [RouteState.start]
  | emit _ hk hi hfirst _ ih =>
    intro st hst
    rcases List.mem_cons.mp hst with rfl | hst
    · by_contra hnd
      exact hfirst _ (waitsFor_self hi hnd) hk
    · exact ih st hst
  | swap _ _ ih =>
    intro st hst
    rcases List.mem_cons.mp hst with rfl | hst
    · exact List.nodup_nil
    · exact ih st hst

theorem swaps (h : Reaches m n is s order waiting) {es : List (Nat × Nat)} (hes : ∀ e ∈ es, m.isLinked e.1 e.2) :
    Reaches m n is (s.swaps es) order waiting := by
  induction es generalizing s with
  | nil => exact h
  | cons e es ih => exact ih (h.swap (hes e List.mem_cons_self)) fun f hf => hes f (List.mem_cons_of_mem _ hf)

end Reaches

theorem mem_front {is : List (Instruction α)} {waiting : List Nat} (hlt : ∀ k ∈ waiting, k < is.length) {k : Nat} :
    k ∈ (Dependencies.ofInstructions is).front waiting ↔ k ∈ waiting ∧ ∀ p, WaitsFor is k p → p ∉ waiting := by
  have hsize : (Dependencies.ofInstructions is).instructions.size = is.length := rfl
  simp only [Dependencies.front, List.mem_filter, List.all_eq_true, getD_marks, hsize, WaitsFor, Bool.not_eq_true',
    Bool.and_eq_false_iff, decide_eq_false_iff_not, List.contains_eq_mem]
  refine and_congr_right fun _ => forall_congr' fun p => imp_congr_right fun _ => ?_
  constructor
  · rintro (hge | hout)
    · exact fun hin => hge (hlt p hin)
    · exact hout
  · exact .inr

/-- Something can always go on, unless all that waits is stuck behind an instruction that lists a classical bit
twice. -/
theorem eq_nil_of_front_eq_nil {is : List (Instruction α)} {waiting : List Nat} (hlt : ∀ k ∈ waiting, k < is.length)
    (hnd : ∀ i ∈ is, i.clbits.Nodup) (h : (Dependencies.ofInstructions is).front waiting = []) : waiting = [] := by
  refine List.eq_nil_iff_forall_not_mem.mpr fun k => ?_
  induction k using Nat.strong_induction_on with
  | h k ih =>
    intro hk
    have hi := List.getElem?_eq_getElem (hlt k hk)
    have hfront : k ∈ (Dependencies.ofInstructions is).front waiting := by
      refine (mem_front hlt).mpr ⟨hk, fun p hp => ?_⟩
      rcases lt_of_waitsFor hi hp with hpk | ⟨-, hdup⟩
      · exact ih p hpk
      · exact absurd (hnd _ (List.getElem_mem _)) hdup
    rw [h] at hfront
    cases hfront

end CircuitStages
