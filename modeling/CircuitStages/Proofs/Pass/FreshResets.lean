import CircuitStages.Proofs.Pass.Failure
import CircuitStages.Proofs.Rewrite.Peephole

namespace CircuitStages

variable {α σ : Type} {is before rest : List (Instruction α)} {i : Instruction α} {touched : List Nat} {j k n q : Nat}

/-- Whether the instruction at a place resets a qubit that no earlier instruction mentions. -/
structure IsFreshReset (is : List (Instruction α)) (k q : Nat) : Prop where
  resets : ∃ i, is[k]? = some i ∧ i.isReset ∧ i.qubits = [q]
  fresh : ∀ j < k, ∀ i, is[j]? = some i → q ∉ i.qubits

/-- On each qubit one reset is fresh at most, since it makes all later ones come too late. -/
theorem IsFreshReset.unique (hj : IsFreshReset is j q) (hk : IsFreshReset is k q) : j = k := by
  have hle {j k : Nat} (hj : IsFreshReset is j q) (hk : IsFreshReset is k q) : ¬ j < k := by
    intro hlt
    obtain ⟨i, hi, -, hqubits⟩ := hj.resets
    have hnot : q ∉ i.qubits := hk.fresh j hlt i hi
    simp [hqubits] at hnot
  have hjk := hle hj hk
  have hkj := hle hk hj
  omega

/-- Whether every reset has one operand. -/
def SingleResets (is : List (Instruction α)) : Prop := ∀ i ∈ is, i.isReset → ∃ q, i.qubits = [q]

theorem Circuit.WellFormed.singleResets {c : Circuit α} (hc : c.WellFormed) : SingleResets c.instructions := by
  intro i hi hreset
  have hname : i.name ∈ singleQubitNames := by
    have hname : i.name = "reset" := by simpa [Instruction.isReset] using hreset
    simp [hname, singleQubitNames]
  exact List.length_eq_one_iff.mp (hc.width_eq_one i hi hname)

/-- The test that removal applies to an instruction, when its earlier ones have touched their qubits. -/
theorem dropped_iff (htouched : ∀ q, q ∈ touched ↔ ∃ e ∈ before, q ∈ e.qubits)
    (hone : i.isReset → ∃ q, i.qubits = [q]) :
    (i.isReset && i.qubits.head?.any fun q => !touched.contains q) = true ↔
      ∃ q, IsFreshReset (before ++ i :: rest) before.length q := by
  have hplace : (before ++ i :: rest)[before.length]? = some i := by simp
  rw [Bool.and_eq_true]
  constructor
  · rintro ⟨hreset, hnew⟩
    obtain ⟨q, hqubits⟩ := hone hreset
    refine ⟨q, ⟨i, hplace, hreset, hqubits⟩, ?_⟩
    intro j hj e he hq
    have hmem : e ∈ before := by
      rw [List.getElem?_append_left hj] at he
      exact List.mem_of_getElem? he
    have htouch : q ∈ touched := (htouched q).mpr ⟨e, hmem, hq⟩
    simp [hqubits, htouch] at hnew
  · rintro ⟨q, ⟨e, he, hreset, hqubits⟩, hfresh⟩
    obtain rfl : i = e := Option.some.inj (hplace.symm.trans he)
    have huntouched : q ∉ touched := by
      intro htouch
      obtain ⟨d, hd, hq⟩ := (htouched q).mp htouch
      obtain ⟨j, hj, rfl⟩ := List.getElem_of_mem hd
      refine hfresh j hj _ ?_ hq
      rw [List.getElem?_append_left hj, List.getElem?_eq_getElem hj]
    exact ⟨hreset, by simpa [hqubits] using huntouched⟩

/-- What is left of the instructions behind some that have been passed: those at the places without a fresh reset. -/
theorem exists_places_dropLeadingResets (hone : SingleResets rest)
    (htouched : ∀ q, q ∈ touched ↔ ∃ e ∈ before, q ∈ e.qubits) :
    ∃ places : List Nat, places.Pairwise (· < ·) ∧
      (∀ k, k ∈ places ↔ before.length ≤ k ∧ k < (before ++ rest).length ∧ ∀ q, ¬ IsFreshReset (before ++ rest) k q) ∧
      dropLeadingResets touched rest = places.filterMap ((before ++ rest)[·]?) := by
  induction rest generalizing before touched with
  | nil =>
    refine ⟨[], List.Pairwise.nil, ?_, rfl⟩
    intro k
    refine iff_of_false List.not_mem_nil ?_
    rintro ⟨hle, hlt, -⟩
    simp at hlt
    omega
  | cons i rest ih =>
    obtain ⟨hi, hrest⟩ := List.forall_mem_cons.mp hone
    have hnext : ∀ q, q ∈ i.qubits ++ touched ↔ ∃ e ∈ before ++ [i], q ∈ e.qubits := by
      intro q
      simp only [List.mem_append, List.mem_singleton, or_and_right, exists_or, exists_eq_left, htouched q]
      exact or_comm
    obtain ⟨places, hascending, hmem, hkept⟩ := ih hrest hnext
    simp only [List.append_assoc, List.singleton_append, List.length_append, List.length_singleton] at hmem hkept
    have hdropped : _ ↔ ∃ q, IsFreshReset (before ++ i :: rest) before.length q := dropped_iff htouched hi
    rw [dropLeadingResets]
    split
    next hdrop =>
      -- The places are those behind this one.
      obtain ⟨q, hfresh⟩ := hdropped.mp hdrop
      refine ⟨places, hascending, ?_, hkept⟩
      intro k
      rw [hmem, List.length_append]
      constructor
      · rintro ⟨hle, hlt, hnot⟩
        exact ⟨by omega, hlt, hnot⟩
      · rintro ⟨hle, hlt, hnot⟩
        have hne : k ≠ before.length := by
          rintro rfl
          exact hnot q hfresh
        exact ⟨by omega, hlt, hnot⟩
    next hkeep =>
      have hnot : ∀ q, ¬ IsFreshReset (before ++ i :: rest) before.length q :=
        fun q hfresh => hkeep (hdropped.mpr ⟨q, hfresh⟩)
      refine ⟨before.length :: places, List.pairwise_cons.mpr ⟨?_, hascending⟩, ?_, ?_⟩
      · intro k hk
        have hle := ((hmem k).mp hk).1
        omega
      · intro k
        rw [List.mem_cons, hmem, List.length_append, List.length_cons]
        constructor
        · rintro (rfl | ⟨hle, hlt, hfresh⟩)
          · exact ⟨Nat.le_refl _, by omega, hnot⟩
          · exact ⟨by omega, hlt, hfresh⟩
        · rintro ⟨hle, hlt, hfresh⟩
          by_cases hk : k = before.length
          · exact .inl hk
          · exact .inr ⟨by omega, hlt, hfresh⟩
      · rw [List.filterMap_cons]
        simp [hkept]

theorem exists_places_removeLeadingResets (hone : SingleResets is) :
    ∃ places : List Nat, places.Pairwise (· < ·) ∧ (∀ k, k ∈ places ↔ k < is.length ∧ ∀ q, ¬ IsFreshReset is k q) ∧
      removeLeadingResets is = places.filterMap (is[·]?) := by
  have hnone : ∀ q, q ∈ ([] : List Nat) ↔ ∃ e ∈ ([] : List (Instruction α)), q ∈ e.qubits := by simp
  obtain ⟨places, hascending, hmem, hkept⟩ := exists_places_dropLeadingResets hone hnone
  exact ⟨places, hascending, by simpa using hmem, hkept⟩

section Semantics

variable {step : Instruction α → σ → σ → Prop} {zero : Nat → σ → Prop} {s t : σ}

/-- Whether instructions lead from one state to another, where a step of each leads from a state to some others. -/
def Runs (step : Instruction α → σ → σ → Prop) : List (Instruction α) → σ → σ → Prop
  | [], s, t => t = s
  | i :: is, s, t => ∃ u, step i s u ∧ Runs step is u t

/-- What resets rely on: an instruction keeps the zeros of qubits that it does not mention, and a reset leaves a state
alone in which its qubit is zero. -/
structure ZeroLaws (step : Instruction α → σ → σ → Prop) (zero : Nat → σ → Prop) : Prop where
  keeps : ∀ i q s t, q ∉ i.qubits → zero q s → step i s t → zero q t
  reset_iff : ∀ i q s t, i.isReset → i.qubits = [q] → zero q s → (step i s t ↔ t = s)

/-- The run without fresh resets stays in step with the run that has them, as long as all qubits are zero that have not
been touched. -/
theorem ZeroLaws.runs_dropLeadingResets_iff (h : ZeroLaws step zero) (hone : SingleResets is)
    (hlt : ∀ i ∈ is, ∀ q ∈ i.qubits, q < n) (hs : ∀ q < n, q ∉ touched → zero q s) :
    Runs step (dropLeadingResets touched is) s t ↔ Runs step is s t := by
  induction is generalizing touched s with
  | nil => exact Iff.rfl
  | cons i is ih =>
    obtain ⟨hi, hrest⟩ := List.forall_mem_cons.mp hone
    obtain ⟨hqubits, hlt⟩ := List.forall_mem_cons.mp hlt
    rw [dropLeadingResets]
    split
    next hdrop =>
      obtain ⟨hreset, hnew⟩ := Bool.and_eq_true_iff.mp hdrop
      obtain ⟨q, hq⟩ := hi hreset
      have huntouched : q ∉ touched := by simpa [hq] using hnew
      have hzero : zero q s := hs q (hqubits q (by simp [hq])) huntouched
      have hstep (u : σ) : step i s u ↔ u = s := h.reset_iff i q s u hreset hq hzero
      have hnext : ∀ p < n, p ∉ i.qubits ++ touched → zero p s := by
        intro p hp hnot
        exact hs p hp fun hmem => hnot (List.mem_append_right _ hmem)
      simp only [Runs, hstep, exists_eq_left]
      exact ih hrest hlt hnext
    next =>
      refine exists_congr fun u => and_congr_right fun hu => ih hrest hlt ?_
      intro q hq hnot
      rw [List.mem_append, not_or] at hnot
      exact h.keeps i q s u hnot.1 (hs q hq hnot.2) hu

end Semantics

namespace Pass

/-- Removal of leading resets drops exactly the resets of qubits that no earlier instruction mentions, so at most one on
each qubit, and keeps the other instructions in their order and all else of the circuit but its schedule; at work on the
circuit in place it is not refused. In every semantics in which an instruction keeps the zeros of qubits that it does not
mention and a reset leaves alone a qubit that is zero, the circuits before and after lead from zeros on all qubits to the
same states. -/
theorem removal_exact {c : Circuit Float} (hc : c.WellFormed) : ∃ (places : List Nat) (is : List (Instruction Float)),
    places.Pairwise (· < ·) ∧
    (∀ k, k ∈ places ↔ k < c.instructions.length ∧ ∀ q, ¬ IsFreshReset c.instructions k q) ∧
    (∀ j k q, IsFreshReset c.instructions j q → IsFreshReset c.instructions k q → j = k) ∧
    is = places.filterMap (c.instructions[·]?) ∧
    removeResets.run c = .success (c.withInstructions is) ∧
    removeResets.edit.apply c = some (.ok (), c.withInstructions is) ∧
    ∀ {σ : Type} (step : Instruction Float → σ → σ → Prop) (zero : Nat → σ → Prop), ZeroLaws step zero →
      ∀ s t, (∀ q < c.numQubits, zero q s) → (Runs step c.instructions s t ↔ Runs step is s t) := by
  obtain ⟨places, hascending, hmem, hkept⟩ := exists_places_removeLeadingResets hc.singleResets
  have hrun : removeResets.run c = .success (c.withInstructions (removeLeadingResets c.instructions)) := by
    rw [run]
  have hedit : removeResets.edit.EndsAs c (removeResets.run c) := by
    refine (edit_cases rfl hc).resolve_left ?_
    intro hfault
    exact Bool.false_ne_true hfault.isMapping
  refine ⟨places, _, hascending, hmem, fun j k q hj hk => hj.unique hk, rfl, ?_, ?_, ?_⟩
  · rw [hrun, hkept]
  · rw [Edit.EndsAs, hrun, hkept] at hedit
    exact hedit
  · intro σ step zero h s t hs
    rw [← hkept]
    exact (h.runs_dropLeadingResets_iff hc.singleResets hc.qubits_lt fun q hq _ => hs q hq).symm

/-- What resets, `x` and `cx` do to bits, as a step from one assignment to another. -/
def stepOnBits (i : Instruction Float) (bits bits' : Nat → Bool) : Prop :=
  bits' = if i.isReset then fun q => bits q && !i.qubits.contains q else onBits i bits

theorem zeroLaws_stepOnBits : ZeroLaws stepOnBits fun q bits => bits q = false where
  keeps i q bits bits' hq hzero hstep := by
    subst hstep
    split
    next => simp [hzero]
    next =>
      rcases onBits_eq i with hidle | ⟨controls, t, hflip, hqubits⟩
      · rw [hidle]
        exact hzero
      · have hne : q ≠ t := by
          rintro rfl
          simp [hqubits] at hq
        rw [hflip, flipIf]
        split
        · rw [Function.update_of_ne hne, hzero]
        · exact hzero
  reset_iff i q bits bits' hreset hqubits hzero := by
    have hsame : (fun p => bits p && !i.qubits.contains p) = bits := by
      funext p
      by_cases hp : p = q
      · simp [hp, hzero]
      · simp [hqubits, hp]
    rw [stepOnBits, if_pos hreset, hsame]

/-- A circuit whose qubits are all reset first, one of them twice. -/
def resetting : Circuit Float :=
  (Circuit.empty "resetting" 3 0).withInstructions [.reset 0, .x 0, .cx 0 1, .reset 1, .reset 2, .reset 2, .x 2]

theorem wellFormed_resetting : resetting.WellFormed :=
  ⟨by decide, by decide, by decide, by decide, nofun, nofun, nofun⟩

theorem removal_exact_resetting : resetting.WellFormed ∧
    removeResets.run resetting =
      .success (resetting.withInstructions [.x 0, .cx 0 1, .reset 1, .reset 2, .x 2]) ∧
    ∀ bits, Runs stepOnBits resetting.instructions (fun _ => false) bits ↔
      Runs stepOnBits [.x 0, .cx 0 1, .reset 1, .reset 2, .x 2] (fun _ => false) bits := by
  have hc : resetting.WellFormed := wellFormed_resetting
  obtain ⟨places, is, -, -, -, -, hrun, -, hsame⟩ := removal_exact hc
  have hresult : removeResets.run resetting =
      .success (resetting.withInstructions [.x 0, .cx 0 1, .reset 1, .reset 2, .x 2]) := by
    rw [run]
    rfl
  obtain rfl : is = [.x 0, .cx 0 1, .reset 1, .reset 2, .x 2] := by
    have heq := hrun.symm.trans hresult
    exact congrArg (fun o : Outcome => o.circuit.instructions) heq
  exact ⟨hc, hresult, fun bits => hsame stepOnBits _ zeroLaws_stepOnBits _ bits fun q _ => rfl⟩

end Pass

end CircuitStages
