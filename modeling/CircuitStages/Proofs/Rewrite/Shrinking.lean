import CircuitStages.Proofs.Circuit.Depth
import CircuitStages.Proofs.Rewrite.Peephole
import Mathlib.Logic.Function.Iterate
import Mathlib.Order.Bounds.Basic

namespace CircuitStages

section Walk

variable {α : Type} {join : Instruction α → Instruction α → Joined α} {i : Instruction α}
  {is output joined : List (Instruction α)}

theorem KeepsOperands.qubits_peephole (hjoin : KeepsOperands join) (is : List (Instruction α)) :
    ((peephole join is).map (·.qubits)).Sublist (is.map (·.qubits)) := by
  rw [← List.filterMap_eq_map]
  apply sublist_filterMap_peephole
  intro p i q hone
  obtain ⟨params, rfl⟩ := hjoin p i q hone
  exact .inr rfl

theorem length_joinBack?_le (h : joinBack? join i output = some joined) : joined.length ≤ output.length := by
  obtain ⟨front, p, back, rfl, -, -, -, -, hresult⟩ := joinBack?_eq_some h
  rcases hresult with ⟨-, rfl⟩ | ⟨q, -, rfl⟩
  · simp
  · simp

/-- Every rewrite makes the output shorter, and the rest of the walk does not make up for it. -/
theorem walked_eq_or_length_lt (join : Instruction α → Instruction α → Joined α) (is : List (Instruction α)) :
    walked join is = is.reverse ∨ (walked join is).length < is.length := by
  induction is using List.reverseRecOn with
  | nil => exact .inl rfl
  | append_singleton is i ih =>
    rw [walked_concat, List.reverse_append, List.length_append, List.length_singleton]
    rcases peepholeStep_cases join (walked join is) i with hbehind | ⟨-, hback⟩
    · rcases ih with hsame | hless
      · left
        rw [hbehind, hsame]
        rfl
      · right
        rw [hbehind, List.length_cons]
        omega
    · right
      have hstep := length_joinBack?_le hback
      have hbefore : (walked join is).length ≤ is.length := by
        rcases ih with hsame | hless
        · rw [hsame, List.length_reverse]
        · exact hless.le
      omega

/-- A list that does not get shorter is not changed at all. -/
theorem peephole_eq_or_length_lt (join : Instruction α → Instruction α → Joined α) (is : List (Instruction α)) :
    peephole join is = is ∨ (peephole join is).length < is.length := by
  rw [peephole_eq_reverse, List.length_reverse]
  rcases walked_eq_or_length_lt join is with hsame | hless
  · left
    rw [hsame, List.reverse_reverse]
  · exact .inr hless

theorem length_peephole_le (join : Instruction α → Instruction α → Joined α) (is : List (Instruction α)) :
    (peephole join is).length ≤ is.length := by
  rcases peephole_eq_or_length_lt join is with hsame | hless
  · rw [hsame]
  · exact hless.le

end Walk

/-- Whether a circuit is neither deeper nor longer than another one. -/
def Circuit.NoLargerThan {α : Type} (c d : Circuit α) : Prop := c.depth ≤ d.depth ∧ c.numOps ≤ d.numOps

instance {α : Type} (c d : Circuit α) : Decidable (c.NoLargerThan d) := inferInstanceAs (Decidable (_ ∧ _))

theorem Circuit.NoLargerThan.trans {α : Type} {c d e : Circuit α} (hcd : c.NoLargerThan d) (hde : d.NoLargerThan e) :
    c.NoLargerThan e :=
  ⟨hcd.1.trans hde.1, hcd.2.trans hde.2⟩

theorem Circuit.noLargerThan_of_sublist {α : Type} {c d : Circuit α}
    (hsub : (c.instructions.map (·.qubits)).Sublist (d.instructions.map (·.qubits))) : c.NoLargerThan d := by
  refine ⟨depth_le_of_sublist hsub, ?_⟩
  have hle := hsub.length_le
  simpa [numOps] using hle

section Loop

variable {step : Circuit Float → Outcome} {round : Circuit Float → Circuit Float} {c : Circuit Float} {limit k : Nat}

/-- Whether a loop may stop after this number of rounds: the limit is reached, or the last round has left the circuit
neither shallower nor shorter. -/
def MayStop (round : Circuit Float → Circuit Float) (c : Circuit Float) (limit k : Nat) : Prop :=
  k = limit ∨ ∃ j, k = j + 1 ∧ (round^[j] c).NoLargerThan (round^[j + 1] c)

theorem mayStop_succ_iff (hround : ¬ c.NoLargerThan (round c)) :
    MayStop round c (limit + 1) (k + 1) ↔ MayStop round (round c) limit k := by
  unfold MayStop
  constructor
  · rintro (hlimit | ⟨j, hk, hstop⟩)
    · exact .inl (by omega)
    · cases j with
      | zero => exact absurd hstop hround
      | succ j => exact .inr ⟨j, by omega, hstop⟩
  · rintro (hlimit | ⟨j, hk, hstop⟩)
    · exact .inl (by omega)
    · exact .inr ⟨j + 1, by omega, hstop⟩

theorem repeatShrinking_succ {d : Circuit Float} (hd : step c = .success d) :
    repeatShrinking step (limit + 1) c = if c.NoLargerThan d then .success d else repeatShrinking step limit d := by
  rw [repeatShrinking, hd]
  refine if_congr ?_ rfl rfl
  rw [Bool.or_eq_true, Bool.and_eq_true, decide_eq_true_iff, decide_eq_true_iff]
  simp [Outcome.success, Outcome.isFailure, Circuit.NoLargerThan]

/-- A loop whose rounds succeed stops at the first chance. -/
theorem repeatShrinking_eq_iterate (hstep : ∀ c, step c = .success (round c)) (limit : Nat) (c : Circuit Float) :
    ∃ k, IsLeast {k | MayStop round c limit k} k ∧ repeatShrinking step limit c = .success (round^[k] c) := by
  induction limit generalizing c with
  | zero => exact ⟨0, ⟨.inl rfl, fun k _ => Nat.zero_le k⟩, rfl⟩
  | succ limit ih =>
    rw [repeatShrinking_succ (hstep c)]
    have hpositive : ∀ k, MayStop round c (limit + 1) k → 1 ≤ k := by
      rintro k (hlimit | ⟨j, hk, -⟩) <;> omega
    by_cases hstop : c.NoLargerThan (round c)
    · exact ⟨1, ⟨.inr ⟨0, rfl, hstop⟩, hpositive⟩, if_pos hstop⟩
    · obtain ⟨k, ⟨hk, hleast⟩, hrun⟩ := ih (round c)
      refine ⟨k + 1, ⟨(mayStop_succ_iff hstop).mpr hk, ?_⟩, ?_⟩
      · intro l hl
        obtain ⟨l, rfl⟩ : ∃ m, l = m + 1 := ⟨l - 1, by have := hpositive l hl; omega⟩
        exact Nat.succ_le_succ (hleast ((mayStop_succ_iff hstop).mp hl))
      · rw [if_neg hstop]
        exact hrun

/-- If every round that changes the size takes an instruction away, a loop that goes on has lost one per round. -/
theorem numOps_iterate_add_le (hround : ∀ c, ¬ c.NoLargerThan (round c) → (round c).numOps < c.numOps)
    (hgoes : ∀ j < k, ¬ (round^[j] c).NoLargerThan (round^[j + 1] c)) : (round^[k] c).numOps + k ≤ c.numOps := by
  induction k with
  | zero => simp
  | succ k ih =>
    have hbefore := ih fun j hj => hgoes j (by omega)
    have hlast := hgoes k (by omega)
    rw [Function.iterate_succ_apply'] at hlast ⊢
    have hless := hround _ hlast
    omega

end Loop

namespace Circuit

variable {c : Circuit Float}

/-- One round of rewriting: rotations are merged, then inverses cancelled. -/
def joinRound (c : Circuit Float) : Circuit Float :=
  c.withInstructions (cancelInverses (mergeRotations c.instructions))

theorem runAll_eq_joinRound (c : Circuit Float) :
    Pass.runAll [.mergeRotations, .cancelInverses] c = .success c.joinRound := by
  refine Pass.runAll_cons_eq_success.mpr ⟨c.withInstructions (mergeRotations c.instructions), ?_, ?_⟩
  · rw [Pass.run]
    rfl
  · rw [Pass.runAll_singleton_eq_success, Pass.run]
    rfl

theorem noLargerThan_run (j : Joining) (c : Circuit Float) : (j.pass.run c).circuit.NoLargerThan c := by
  rw [j.run_pass]
  exact noLargerThan_of_sublist (j.keepsOperands.qubits_peephole c.instructions)

theorem joinRound_noLargerThan (c : Circuit Float) : c.joinRound.NoLargerThan c := by
  apply noLargerThan_of_sublist
  have hmerge := keepsOperands_mergePair.qubits_peephole c.instructions
  have hcancel := keepsOperands_cancelPair.qubits_peephole (mergeRotations c.instructions)
  exact hcancel.trans hmerge

/-- A round that keeps the number of instructions finds nothing to join. -/
theorem peephole_eq_of_numOps_le (h : c.numOps ≤ c.joinRound.numOps) (j : Joining) :
    peephole j.combine c.instructions = c.instructions := by
  change c.instructions.length ≤ (peephole cancelPair (mergeRotations c.instructions)).length at h
  have hcancel := length_peephole_le cancelPair (mergeRotations c.instructions)
  have hmerged : mergeRotations c.instructions = c.instructions := by
    rcases peephole_eq_or_length_lt mergePair c.instructions with hsame | hless
    · exact hsame
    · change (mergeRotations c.instructions).length < _ at hless
      omega
  cases j with
  | rotations => exact hmerged
  | inverses =>
    rw [hmerged] at h
    exact (peephole_eq_or_length_lt cancelPair c.instructions).resolve_right (Nat.not_lt.mpr h)

theorem instructions_joinRound_of_numOps_le (h : c.numOps ≤ c.joinRound.numOps) :
    c.joinRound.instructions = c.instructions := by
  have hmerged : mergeRotations c.instructions = c.instructions := peephole_eq_of_numOps_le h .rotations
  have hcancelled : cancelInverses c.instructions = c.instructions := peephole_eq_of_numOps_le h .inverses
  change cancelInverses (mergeRotations c.instructions) = c.instructions
  rw [hmerged, hcancelled]

/-- A round that makes the circuit smaller in any way takes instructions away. -/
theorem numOps_joinRound_lt (h : ¬ c.NoLargerThan c.joinRound) : c.joinRound.numOps < c.numOps := by
  by_contra hle
  have hkept : c.joinRound.instructions = c.instructions := instructions_joinRound_of_numOps_le (by omega)
  apply h
  constructor
  · rw [depth, depth, hkept]
  · rw [numOps, numOps, hkept]

/-- Where a round has not made the circuit smaller, no walk changes it any more. -/
theorem peephole_joinRound_eq_self (h : c.NoLargerThan c.joinRound) (j : Joining) :
    peephole j.combine c.joinRound.instructions = c.joinRound.instructions := by
  rw [instructions_joinRound_of_numOps_le h.2]
  exact peephole_eq_of_numOps_le h.2 j

end Circuit

namespace Pass

variable {c : Circuit Float} {limit k : Nat}

/-- A loop that has stopped short of its limit, or that may go on for more rounds than there are instructions, has
stopped after a round that made nothing smaller. -/
theorem exists_last_of_mayStop (h : IsLeast {k | MayStop Circuit.joinRound c limit k} k)
    (henough : k < limit ∨ c.numOps < limit) :
    ∃ j, k = j + 1 ∧ (Circuit.joinRound^[j] c).NoLargerThan (Circuit.joinRound^[j + 1] c) := by
  obtain ⟨hstop, hleast⟩ := h
  rcases hstop with hlimit | hlast
  · by_contra hnone
    have hgoes : ∀ j < k, ¬ (Circuit.joinRound^[j] c).NoLargerThan (Circuit.joinRound^[j + 1] c) := by
      intro j hj hround
      have hle : k ≤ j + 1 := hleast (.inr ⟨j, rfl, hround⟩)
      exact hnone ⟨j, by omega, hround⟩
    have hlost := numOps_iterate_add_le (fun _ => Circuit.numOps_joinRound_lt) hgoes
    omega
  · exact hlast

/-- The loop that merges rotations and cancels inverses succeeds. It leaves the circuit after the first round that made
it neither shallower nor shorter, or after the last round allowed. If it stops before that, or if more rounds are
allowed than there are instructions, then neither pass changes the instructions it has left. No pass and no round ever
makes a circuit deeper or longer. -/
theorem run_optimizationLoop (c : Circuit Float) (limit : Nat) :
    (∃ k, IsLeast {k | MayStop Circuit.joinRound c limit k} k ∧ k ≤ limit ∧
      (optimizationLoop [mergeRotations, cancelInverses] limit).run c = .success (Circuit.joinRound^[k] c) ∧
      (k < limit ∨ c.numOps < limit → ∀ p ∈ [mergeRotations, cancelInverses],
        ∃ d, p.run (Circuit.joinRound^[k] c) = .success d ∧
          d.instructions = (Circuit.joinRound^[k] c).instructions)) ∧
    (∀ d, runAll [mergeRotations, cancelInverses] d = .success d.joinRound) ∧
    (∀ p ∈ [mergeRotations, cancelInverses], ∀ d, (p.run d).circuit.NoLargerThan d) ∧
    ∀ m n, m ≤ n → (Circuit.joinRound^[n] c).NoLargerThan (Circuit.joinRound^[m] c) := by
  have hjoining : ∀ p ∈ [mergeRotations, cancelInverses], ∃ j : Joining, p = j.pass := by
    simp only [List.forall_mem_cons, List.not_mem_nil, false_implies, implies_true, and_true]
    exact ⟨⟨.rotations, rfl⟩, ⟨.inverses, rfl⟩⟩
  refine ⟨?_, Circuit.runAll_eq_joinRound, ?_, ?_⟩
  · obtain ⟨k, hk, hrun⟩ := repeatShrinking_eq_iterate Circuit.runAll_eq_joinRound limit c
    refine ⟨k, hk, hk.2 (.inl rfl), by rwa [run], ?_⟩
    intro henough p hp
    obtain ⟨j, rfl⟩ := hjoining p hp
    obtain ⟨n, rfl, hround⟩ := exists_last_of_mayStop hk henough
    rw [Function.iterate_succ_apply'] at hround ⊢
    exact ⟨_, j.run_pass _, Circuit.peephole_joinRound_eq_self hround j⟩
  · intro p hp d
    obtain ⟨j, rfl⟩ := hjoining p hp
    exact Circuit.noLargerThan_run j d
  · intro m n hmn
    induction n, hmn using Nat.le_induction with
    | base => exact ⟨Nat.le_refl _, Nat.le_refl _⟩
    | succ n _ ih =>
      rw [Function.iterate_succ_apply']
      exact (Circuit.joinRound_noLargerThan _).trans ih

theorem run_optimizationLoop_cancelling : ∃ k ≤ 20, Circuit.cancelling.numOps < 20 ∧
    (optimizationLoop [mergeRotations, cancelInverses] 20).run .cancelling =
      .success (Circuit.joinRound^[k] .cancelling) ∧
    ∀ p ∈ [mergeRotations, cancelInverses], ∃ d, p.run (Circuit.joinRound^[k] .cancelling) = .success d ∧
      d.instructions = (Circuit.joinRound^[k] .cancelling).instructions := by
  obtain ⟨⟨k, -, hle, hrun, hfixed⟩, -⟩ := run_optimizationLoop .cancelling 20
  have hfew : Circuit.cancelling.numOps < 20 := by decide
  exact ⟨k, hle, hfew, hrun, hfixed (.inr hfew)⟩

end Pass

end CircuitStages
