import CircuitStages.Data.Node
import CircuitStages.Proofs.Ascending
import CircuitStages.Proofs.Circuit.Checks
import CircuitStages.Proofs.Mapping.Placement

namespace CircuitStages

variable {n device : Nat}

/-- The free positions of a larger device begin with those of a smaller one. -/
theorem absentBelow_eq_append (hn : n ≤ device) (xs : List Nat) :
    ∃ more, absentBelow device xs = absentBelow n xs ++ more := by
  refine ⟨(absentBelow device xs).filter (n ≤ ·), eq_of_ascending (pairwise_absentBelow device xs) ?_ ?_⟩
  · refine List.pairwise_append.mpr ⟨pairwise_absentBelow n xs, (pairwise_absentBelow device xs).filter _, ?_⟩
    intro a ha b hb
    have hle : n ≤ b := of_decide_eq_true (List.mem_filter.mp hb).2
    exact Nat.lt_of_lt_of_le (mem_absentBelow.mp ha).1 hle
  · intro k
    simp only [List.mem_append, List.mem_filter, mem_absentBelow, decide_eq_true_eq]
    constructor
    · rintro ⟨hk, hnew⟩
      rcases Nat.lt_or_ge k n with hlt | hle
      · exact .inl ⟨hlt, hnew⟩
      · exact .inr ⟨⟨hk, hnew⟩, hle⟩
    · rintro (⟨hlt, hnew⟩ | ⟨h, -⟩)
      · exact ⟨Nat.lt_of_lt_of_le hlt hn, hnew⟩
      · exact h

theorem zip_append_of_length_le {α β : Type} {xs : List α} {ys : List β} (zs : List β) (h : xs.length ≤ ys.length) :
    xs.zip (ys ++ zs) = xs.zip ys := by
  induction xs generalizing ys with
  | nil => rfl
  | cons x xs ih =>
    cases ys with
    | nil => cases h
    | cons y ys => rw [List.cons_append, List.zip_cons_cons, List.zip_cons_cons, ih (Nat.le_of_succ_le_succ h)]

namespace Layout

variable {l : Layout} {v p : Nat}

/-- Gives a virtual qubit without a position the first one that is free. -/
def seatNext (placed : Layout × List Nat) (v : Nat) : Except CircuitError (Layout × List Nat) :=
  match placed.1.physical? v, placed.2 with
  | some _, _ => .ok placed
  | none, p :: free => .ok (placed.1.add v p, free)
  | none, [] => .error (.layoutMismatch (.stated s!"no free physical qubit left for q{v}"))

/-- Completes a layout for `n` virtual qubits, which take free positions below `device` one after the other. -/
def completeInTurn (l : Layout) (n device : Nat) : Except CircuitError Layout := do
  let free := absentBelow device ((l.below n).map (·.2))
  let placed ← (List.range n).foldlM seatNext (.ofPairs (l.below n), free)
  pure placed.1

theorem physical?_eq_none_iff : l.physical? v = none ↔ v ∉ l.pairs.map (·.1) := by
  simp only [physical?, Option.map_eq_none_iff, List.find?_eq_none, beq_iff_eq, List.mem_map, not_exists, not_and]

/-- A pair of two new partners leaves all others alone. -/
theorem mem_add_of_new (hv : v ∉ l.pairs.map (·.1)) (hp : p ∉ l.pairs.map (·.2)) {e : Nat × Nat} :
    e ∈ (l.add v p).pairs ↔ e = (v, p) ∨ e ∈ l.pairs := by
  rw [mem_add]
  refine or_congr_right ⟨And.left, fun he => ⟨he, ?_, ?_⟩⟩
  · exact fun h => hv (h ▸ List.mem_map_of_mem he)
  · exact fun h => hp (h ▸ List.mem_map_of_mem he)

/-- If there are enough free positions, the virtual qubits without one get them in turn, and nothing else changes. -/
theorem exists_foldlM_seatNext {vs free : List Nat} (hvs : vs.Nodup) (hfree : free.Nodup)
    (haway : ∀ p ∈ free, p ∉ l.pairs.map (·.2)) (henough : (vs.filter (· ∉ l.pairs.map (·.1))).length ≤ free.length) :
    ∃ placed, vs.foldlM seatNext (l, free) = .ok placed ∧
      ∀ e, e ∈ placed.1.pairs ↔ e ∈ l.pairs ∨ e ∈ (vs.filter (· ∉ l.pairs.map (·.1))).zip free := by
  induction vs generalizing l free with
  | nil => exact ⟨(l, free), rfl, by simp⟩
  | cons v vs ih =>
    obtain ⟨hv, hvs⟩ := List.nodup_cons.mp hvs
    rw [List.foldlM_cons, seatNext]
    by_cases hplaced : v ∈ l.pairs.map (·.1)
    · obtain ⟨p, hp⟩ := Option.ne_none_iff_exists'.mp (mt physical?_eq_none_iff.mp (not_not_intro hplaced))
      have hskip : (v :: vs).filter (· ∉ l.pairs.map (·.1)) = vs.filter (· ∉ l.pairs.map (·.1)) :=
        List.filter_cons_of_neg (by simpa using hplaced)
      rw [hskip] at henough ⊢
      simp only [hp]
      exact ih hvs hfree haway henough
    · have htake : (v :: vs).filter (· ∉ l.pairs.map (·.1)) = v :: vs.filter (· ∉ l.pairs.map (·.1)) :=
        List.filter_cons_of_pos (by simpa using hplaced)
      rw [htake] at henough ⊢
      cases free with
      | nil => cases henough
      | cons p free =>
        obtain ⟨hp, hfree⟩ := List.nodup_cons.mp hfree
        obtain ⟨hnew, haway⟩ := List.forall_mem_cons.mp haway
        have hadd {e : Nat × Nat} := mem_add_of_new (e := e) hplaced hnew
        have hrest : vs.filter (· ∉ (l.add v p).pairs.map (·.1)) = vs.filter (· ∉ l.pairs.map (·.1)) := by
          refine List.filter_congr fun w hw => decide_eq_decide.mpr (not_congr ?_)
          have hne : v ≠ w := fun h => hv (h ▸ hw)
          simp [hadd, hne]
        have haway : ∀ q ∈ free, q ∉ (l.add v p).pairs.map (·.2) := by
          intro q hq
          have hne : p ≠ q := fun h => hp (h ▸ hq)
          simpa [hadd, hne] using haway q hq
        rw [List.length_cons, List.length_cons, Nat.succ_le_succ_iff, ← hrest] at henough
        obtain ⟨placed, hrun, hmem⟩ := ih hvs hfree haway henough
        simp only [physical?_eq_none_iff.mpr hplaced]
        refine ⟨placed, hrun, fun e => ?_⟩
        rw [hmem, hrest, hadd, List.zip_cons_cons, List.mem_cons, or_assoc, or_left_comm]

/-- Every virtual qubit left over finds a free position, the same one on every device that is large enough. -/
theorem completeInTurn_eq (l : Layout) (hn : n ≤ device) : l.completeInTurn n device = .ok (completeLayout l n) := by
  have hgiven {e : Nat × Nat} : e ∈ (ofPairs (l.below n)).pairs ↔ e ∈ l.below n :=
    mem_ofPairs (l.nodup_below_virtual n) (l.nodup_below_physical n)
  have hunplaced : (List.range n).filter (· ∉ (ofPairs (l.below n)).pairs.map (·.1)) = l.unplaced n := by
    refine eq_of_ascending (List.pairwise_lt_range.filter _) (pairwise_absentBelow _ _) fun v => ?_
    simp [unplaced, mem_absentBelow, hgiven]
  obtain ⟨more, hfree⟩ := absentBelow_eq_append hn ((l.below n).map (·.2))
  have henough : (l.unplaced n).length ≤ (l.free n).length := l.length_unplaced_le n
  have haway : ∀ p ∈ absentBelow device ((l.below n).map (·.2)), p ∉ (ofPairs (l.below n)).pairs.map (·.2) := by
    intro p hp
    simpa [hgiven] using (mem_absentBelow.mp hp).2
  have hlength : ((List.range n).filter (· ∉ (ofPairs (l.below n)).pairs.map (·.1))).length ≤
      (absentBelow device ((l.below n).map (·.2))).length := by
    rw [hunplaced, hfree, List.length_append]
    exact Nat.le_add_right_of_le henough
  obtain ⟨placed, hrun, hmem⟩ := exists_foldlM_seatNext List.nodup_range (nodup_absentBelow _ _) haway hlength
  have hzip : (l.unplaced n).zip (absentBelow device ((l.below n).map (·.2))) = (l.unplaced n).zip (l.free n) := by
    rw [hfree]
    exact zip_append_of_length_le more henough
  rw [completeInTurn, hrun]
  refine congrArg Except.ok (eq_of_mem_iff fun e => ?_)
  rw [hmem, hunplaced, hgiven, mem_completeLayout, hzip]

/-- One past the last position of a layout, if there is such a number. -/
def limit? (l : Layout) : Option Nat :=
  match l.maxPhysical? with
  | none => some 0
  | some p => if p < Node.maxIndex then some (p + 1) else none

theorem exists_of_limit?_eq_none (h : l.limit? = none) : ∃ e ∈ l.pairs, Node.maxIndex ≤ e.2 := by
  rw [limit?] at h
  split at h
  next => cases h
  next p hp =>
    split at h
    next => cases h
    next hlast =>
      obtain ⟨e, he, rfl⟩ := List.mem_map.mp (List.max?_mem hp)
      exact ⟨e, he, Nat.le_of_not_lt hlast⟩

theorem placedSize_eq_of_limit? {limit : Nat} (h : l.limit? = some limit) (n numPhysical : Nat) :
    placedSize l n numPhysical = max (max numPhysical n) limit := by
  rw [placedSize]
  rw [limit?] at h
  split at h
  next hnone =>
    cases h
    rw [hnone]
    rfl
  next p hp =>
    split at h
    next =>
      cases h
      rw [hp]
      rfl
    next => cases h

end Layout

section Instructions

variable {α : Type} {c : Circuit α}

/-- The instruction on the positions of its qubits, the first of which without a position is an error. -/
def Instruction.placeInTurn (l : Layout) (i : Instruction α) : Except CircuitError (Instruction α) := do
  let positions ← i.qubits.mapM fun q =>
    match l.physical? q with
    | some p => pure p
    | none => throw (.layoutMismatch (.stated s!"q{q} has no placement"))
  pure (i.onQubits positions)

/-- A completed layout has a position for every operand. -/
theorem Circuit.WellFormed.placeInTurn_eq (hc : c.WellFormed) (l : Layout) {i : Instruction α}
    (hi : i ∈ c.instructions) :
    i.placeInTurn (completeLayout l c.numQubits) = .ok (i.place (completeLayout l c.numQubits)) := by
  rw [Instruction.placeInTurn, mapM_eq_ok_map (g := fun q => ((completeLayout l c.numQubits).physical? q).getD q)]
  · rfl
  · intro q hq
    rw [Layout.physical?_eq_some_iff.mpr (Circuit.position_spec l (hc.qubits_lt i hi q hq))]
    rfl

end Instructions

end CircuitStages
