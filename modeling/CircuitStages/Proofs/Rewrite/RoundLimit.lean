import CircuitStages.Proofs.Rewrite.Neighbours
import CircuitStages.Stage.Builtin

namespace CircuitStages

namespace Circuit

variable {c : Circuit Float} {k m limit : Nat}

/-- Whether merging rotations and cancelling inverses both change no instruction. -/
def IsSettled (c : Circuit Float) : Prop :=
  ∀ p ∈ [Pass.mergeRotations, .cancelInverses], ∃ d, p.run c = .success d ∧ d.instructions = c.instructions

theorem isSettled_iff_peephole : c.IsSettled ↔ ∀ j : Joining, peephole j.combine c.instructions = c.instructions := by
  have hrun (j : Joining) : (∃ d, j.pass.run c = .success d ∧ d.instructions = c.instructions) ↔
      peephole j.combine c.instructions = c.instructions := by
    rw [j.run_pass]
    constructor
    · rintro ⟨d, hd, hsame⟩
      cases hd
      exact hsame
    · exact fun hsame => ⟨_, rfl, hsame⟩
  rw [IsSettled, List.forall_mem_cons, List.forall_mem_singleton]
  constructor
  · rintro ⟨hmerge, hcancel⟩ (_ | _)
    · exact (hrun .inverses).mp hcancel
    · exact (hrun .rotations).mp hmerge
  · exact fun h => ⟨(hrun .rotations).mpr (h .rotations), (hrun .inverses).mpr (h .inverses)⟩

theorem isSettled_iff_settled : c.IsSettled ↔ ∀ j : Joining, Settled j.combine c.instructions := by
  simp only [isSettled_iff_peephole, peephole_eq_self_iff]

theorem isSettled_iff_joinRound : c.IsSettled ↔ c.joinRound.instructions = c.instructions := by
  rw [isSettled_iff_peephole]
  constructor
  · intro h
    have hmerged : mergeRotations c.instructions = c.instructions := h .rotations
    have hcancelled : cancelInverses c.instructions = c.instructions := h .inverses
    change cancelInverses (mergeRotations c.instructions) = c.instructions
    rw [hmerged, hcancelled]
  · intro h
    exact peephole_eq_of_numOps_le (by rw [numOps, numOps, h])

/-- Rounds that have reached a settled circuit stay there. -/
theorem IsSettled.iterate (h : (joinRound^[k] c).IsSettled) (hkm : k ≤ m) : (joinRound^[m] c).IsSettled := by
  induction m, hkm using Nat.le_induction with
  | base => exact h
  | succ m _ ih =>
    rw [Function.iterate_succ_apply', isSettled_iff_peephole, isSettled_iff_joinRound.mp ih]
    exact isSettled_iff_peephole.mp ih

theorem isSettled_of_noLargerThan (h : c.NoLargerThan c.joinRound) : c.IsSettled :=
  isSettled_iff_joinRound.mpr (instructions_joinRound_of_numOps_le h.2)

/-- A circuit needs no more rounds than it has instructions. -/
theorem exists_isSettled_iterate (h : c.numOps ≤ limit) : ∃ k ≤ limit, (joinRound^[k] c).IsSettled := by
  by_contra hnone
  have hgoes : ∀ j < limit + 1, ¬ (joinRound^[j] c).NoLargerThan (joinRound^[j + 1] c) := by
    intro j hj hround
    rw [Function.iterate_succ_apply'] at hround
    exact hnone ⟨j, Nat.lt_succ_iff.mp hj, isSettled_of_noLargerThan hround⟩
  have hlost := numOps_iterate_add_le (fun _ => numOps_joinRound_lt) hgoes
  omega

end Circuit

/-- A loop leaves a settled circuit exactly if one is reached within its limit, and otherwise makes use of all its
rounds. -/
theorem Pass.isSettled_run_iff (c : Circuit Float) (limit : Nat) :
    ∃ d, (optimizationLoop [mergeRotations, cancelInverses] limit).run c = .success d ∧
      (d.IsSettled ↔ ∃ k ≤ limit, (Circuit.joinRound^[k] c).IsSettled) ∧
      (¬ d.IsSettled → d = Circuit.joinRound^[limit] c) := by
  obtain ⟨k, hk, hrun⟩ := repeatShrinking_eq_iterate Circuit.runAll_eq_joinRound limit c
  have hle : k ≤ limit := hk.2 (.inl rfl)
  -- A loop that stops early does so after a round that changed nothing.
  have hearly (hless : k < limit) : (Circuit.joinRound^[k] c).IsSettled := by
    obtain ⟨j, rfl, hround⟩ := exists_last_of_mayStop hk (.inl hless)
    rw [Function.iterate_succ_apply'] at hround
    exact (Circuit.isSettled_of_noLargerThan hround).iterate (Nat.le_succ j)
  refine ⟨Circuit.joinRound^[k] c, by rwa [run], ⟨fun hsettled => ⟨k, hle, hsettled⟩, ?_⟩, fun hopen => ?_⟩
  · rintro ⟨m, hm, hsettled⟩
    rcases hle.lt_or_eq with hless | rfl
    · exact hearly hless
    · exact hsettled.iterate hm
  · rw [hle.lt_or_eq.resolve_left fun hless => hopen (hearly hless)]

section Nested

/-- Layers of a gate and a rotation. -/
def openingLayers : Nat → List (Instruction Float)
  | 0 => []
  | n + 1 => openingLayers n ++ [.h 0, .rz 0.5 0]

/-- The inverses of the layers, in the opposite order. -/
def closingLayers : Nat → List (Instruction Float)
  | 0 => []
  | n + 1 => .rz (-0.5) 0 :: .h 0 :: closingLayers n

/-- Layers that undo each other from the inside. -/
def Circuit.nested (n : Nat) : Circuit Float :=
  (empty "nested" 1 0).withInstructions (openingLayers n ++ closingLayers n)

variable {n k : Nat} {output : List (Instruction Float)}

/-- What holds of the gates in the layers holds of all instructions. -/
theorem Circuit.forall_mem_nested {P : Instruction Float → Prop} (hgate : P (.h 0)) (hrotation : P (.rz 0.5 0))
    (hinverse : P (.rz (-0.5) 0)) (n : Nat) : ∀ i ∈ (nested n).instructions, P i := by
  change ∀ i ∈ openingLayers n ++ closingLayers n, P i
  rw [List.forall_mem_append]
  induction n with
  | zero => exact ⟨nofun, nofun⟩
  | succ n ih =>
    constructor
    · rw [openingLayers, List.forall_mem_append]
      exact ⟨ih.1, List.forall_mem_cons.mpr ⟨hgate, List.forall_mem_singleton.mpr hrotation⟩⟩
    · exact List.forall_mem_cons.mpr ⟨hinverse, List.forall_mem_cons.mpr ⟨hgate, ih.2⟩⟩

theorem Circuit.wellFormed_nested (n : Nat) : (nested n).WellFormed where
  qubits_lt := forall_mem_nested (P := fun i => ∀ q ∈ i.qubits, q < 1) (by decide) (by decide) (by decide) n
  clbits_lt := forall_mem_nested nofun nofun nofun n
  qubits_nodup := forall_mem_nested (by decide) (by decide) (by decide) n
  width_eq_one := forall_mem_nested (fun _ => rfl) (fun _ => rfl) (fun _ => rfl) n
  layout_lt := nofun
  finalLayout_lt := nofun
  startTimes_length := nofun

theorem Circuit.numOps_nested (n : Nat) : (nested n).numOps = 4 * n := by
  change (openingLayers n ++ closingLayers n).length = 4 * n
  induction n with
  | zero => rfl
  | succ n ih =>
    simp only [openingLayers, closingLayers, List.length_append, List.length_cons, List.length_nil] at ih ⊢
    omega

-- A gate and a rotation on the same qubit stay apart, whichever comes first.

theorem step_gate_behind_rotation (j : Joining) (angle : Float) :
    peepholeStep j.combine (.rz angle 0 :: output) (.h 0) = .h 0 :: .rz angle 0 :: output := by
  cases j <;> rfl

theorem step_rotation_behind_gate (j : Joining) (angle : Float) :
    peepholeStep j.combine (.h 0 :: output) (.rz angle 0) = .rz angle 0 :: .h 0 :: output := by
  cases j <;> rfl

theorem reverse_openingLayers_succ (n : Nat) :
    (openingLayers (n + 1)).reverse = .rz 0.5 0 :: .h 0 :: (openingLayers n).reverse := by
  rw [openingLayers, List.reverse_append]
  rfl

theorem step_gate_behind_openingLayers (j : Joining) (n : Nat) :
    peepholeStep j.combine (openingLayers n).reverse (.h 0) = .h 0 :: (openingLayers n).reverse := by
  cases n with
  | zero => cases j <;> rfl
  | succ n =>
    rw [reverse_openingLayers_succ]
    exact step_gate_behind_rotation j 0.5

theorem walked_openingLayers (j : Joining) (n : Nat) :
    walked j.combine (openingLayers n) = (openingLayers n).reverse := by
  induction n with
  | zero => rfl
  | succ n ih =>
    rw [reverse_openingLayers_succ, openingLayers, List.append_cons, walked_concat, walked_concat, ih,
      step_gate_behind_openingLayers, step_rotation_behind_gate]

theorem foldl_closingLayers (j : Joining) (n : Nat) (output : List (Instruction Float)) :
    (closingLayers n).foldl (peepholeStep j.combine) (.h 0 :: output) =
      (closingLayers n).reverse ++ .h 0 :: output := by
  induction n generalizing output with
  | zero => rfl
  | succ n ih =>
    rw [closingLayers, List.foldl_cons, List.foldl_cons, step_rotation_behind_gate, step_gate_behind_rotation, ih,
      List.reverse_cons, List.reverse_cons, List.append_assoc, List.append_assoc]
    rfl

/-- Merging takes the innermost rotations away, so that the gates around them meet. -/
theorem mergeRotations_nested (n : Nat) : mergeRotations (openingLayers (n + 1) ++ closingLayers (n + 1)) =
    openingLayers n ++ .h 0 :: .h 0 :: closingLayers n := by
  let join := Joining.rotations.combine
  have hmeet : peepholeStep join (.rz 0.5 0 :: .h 0 :: (openingLayers n).reverse) (.rz (-0.5) 0) =
      .h 0 :: (openingLayers n).reverse := rfl
  have hapart : peepholeStep join (.h 0 :: (openingLayers n).reverse) (.h 0) =
      .h 0 :: .h 0 :: (openingLayers n).reverse := rfl
  have hwalked : walked join (openingLayers (n + 1) ++ closingLayers (n + 1)) =
      (closingLayers n).reverse ++ .h 0 :: .h 0 :: (openingLayers n).reverse := by
    rw [walked_append, walked_openingLayers, reverse_openingLayers_succ, closingLayers, List.foldl_cons,
      List.foldl_cons, hmeet, hapart, foldl_closingLayers]
  calc mergeRotations (openingLayers (n + 1) ++ closingLayers (n + 1))
      = (walked join (openingLayers (n + 1) ++ closingLayers (n + 1))).reverse := rfl
    _ = openingLayers n ++ .h 0 :: .h 0 :: closingLayers n := by simp [hwalked]

/-- Cancelling takes these gates away, and the next rotations meet, which stay. -/
theorem cancelInverses_nested (n : Nat) :
    cancelInverses (openingLayers n ++ .h 0 :: .h 0 :: closingLayers n) = openingLayers n ++ closingLayers n := by
  let join := Joining.inverses.combine
  have hmeet : peepholeStep join (.h 0 :: (openingLayers n).reverse) (.h 0) = (openingLayers n).reverse := rfl
  have hclose : (closingLayers n).foldl (peepholeStep join) (openingLayers n).reverse =
      (closingLayers n).reverse ++ (openingLayers n).reverse := by
    cases n with
    | zero => rfl
    | succ n =>
      have hapart : peepholeStep join (.rz 0.5 0 :: .h 0 :: (openingLayers n).reverse) (.rz (-0.5) 0) =
          .rz (-0.5) 0 :: .rz 0.5 0 :: .h 0 :: (openingLayers n).reverse := rfl
      rw [reverse_openingLayers_succ, closingLayers, List.foldl_cons, List.foldl_cons, hapart,
        step_gate_behind_rotation, foldl_closingLayers]
      simp
  have hwalked : walked join (openingLayers n ++ .h 0 :: .h 0 :: closingLayers n) =
      (closingLayers n).reverse ++ (openingLayers n).reverse := by
    rw [walked_append, walked_openingLayers, List.foldl_cons, List.foldl_cons, step_gate_behind_openingLayers, hmeet,
      hclose]
  calc cancelInverses (openingLayers n ++ .h 0 :: .h 0 :: closingLayers n)
      = (walked join (openingLayers n ++ .h 0 :: .h 0 :: closingLayers n)).reverse := rfl
    _ = openingLayers n ++ closingLayers n := by simp [hwalked]

namespace Circuit

theorem joinRound_nested (n : Nat) : (nested (n + 1)).joinRound = nested n := by
  change (nested (n + 1)).withInstructions
    (cancelInverses (mergeRotations (openingLayers (n + 1) ++ closingLayers (n + 1)))) = nested n
  rw [mergeRotations_nested, cancelInverses_nested]
  rfl

theorem iterate_joinRound_nested (k n : Nat) : joinRound^[k] (nested (n + k)) = nested n := by
  induction k with
  | zero => rfl
  | succ k ih => rw [Function.iterate_succ_apply, ← Nat.add_assoc, joinRound_nested, ih]

theorem isSettled_nested_iff : (nested n).IsSettled ↔ n = 0 := by
  cases n with
  | zero => exact iff_of_true (isSettled_iff_joinRound.mpr rfl) rfl
  | succ n =>
    refine iff_of_false (fun h => ?_) (Nat.succ_ne_zero n)
    rw [isSettled_iff_joinRound, joinRound_nested] at h
    have hlength := congrArg List.length h
    change (nested n).numOps = (nested (n + 1)).numOps at hlength
    rw [numOps_nested, numOps_nested] at hlength
    omega

/-- It takes as many rounds as there are layers. -/
theorem isSettled_iterate_nested_iff : (joinRound^[k] (nested n)).IsSettled ↔ n ≤ k := by
  constructor
  · intro h
    by_contra hless
    obtain ⟨m, rfl⟩ := Nat.exists_eq_add_of_lt (Nat.not_le.mp hless)
    rw [show k + m + 1 = m + 1 + k by omega, iterate_joinRound_nested, isSettled_nested_iff] at h
    omega
  · intro hle
    refine IsSettled.iterate (k := n) ?_ hle
    have hnone := iterate_joinRound_nested n 0
    rw [Nat.zero_add] at hnone
    rw [hnone, isSettled_nested_iff]

end Circuit

end Nested

namespace Pass

/-- The loop of the built-in optimization stage, from level 2 on, leaves a circuit that merging and cancelling change
no more, one without neighbours that they would join, exactly if at most 20 rounds of them reach such a circuit. That is
so for all circuits of at most 20 instructions; where it is not, the loop ends after 20 rounds. -/
theorem optimization_isSettled_iff (config : Config) {level : Nat} (hlevel : 2 ≤ level) (c : Circuit Float) :
    ∃ loop translation d, Registry.builtin.lookup .optimization "default" config level = .ok (loop :: translation) ∧
      loop = optimizationLoop [mergeRotations, cancelInverses] 20 ∧
      (∀ p ∈ translation, p = translator config) ∧
      loop.run c = .success d ∧
      (d.IsSettled ↔ ∃ k ≤ 20, (Circuit.joinRound^[k] c).IsSettled) ∧
      (d.IsSettled ↔ ∀ j : Joining, ∀ p i, Neighbours d.instructions p i → j.combine p i = .apart) ∧
      (c.numOps ≤ 20 → d.IsSettled) ∧
      (¬ d.IsSettled → d = Circuit.joinRound^[20] c) := by
  obtain ⟨level, rfl⟩ := Nat.exists_eq_add_of_le' hlevel
  obtain ⟨d, hrun, hsettled, hopen⟩ := isSettled_run_iff c 20
  refine ⟨_, _, d, rfl, rfl, ?_, hrun, hsettled, Circuit.isSettled_iff_settled, fun hfew => ?_, hopen⟩
  · intro p hp
    split at hp
    · exact List.mem_singleton.mp hp
    · cases hp
  · exact hsettled.mpr (Circuit.exists_isSettled_iterate hfew)

theorem optimization_isSettled_iff_nested : 2 ≤ 2 ∧
    ∃ loop translation d, Registry.builtin.lookup .optimization "default" {} 2 = .ok (loop :: translation) ∧
      loop = optimizationLoop [mergeRotations, cancelInverses] 20 ∧
      (∀ p ∈ translation, p = translator {}) ∧
      loop.run (.nested 20) = .success d ∧
      (d.IsSettled ↔ ∃ k ≤ 20, (Circuit.joinRound^[k] (.nested 20)).IsSettled) ∧
      (d.IsSettled ↔ ∀ j : Joining, ∀ p i, Neighbours d.instructions p i → j.combine p i = .apart) ∧
      d.IsSettled := by
  have hlayers : (Circuit.joinRound^[20] (.nested 20)).IsSettled :=
    Circuit.isSettled_iterate_nested_iff.mpr (Nat.le_refl 20)
  obtain ⟨loop, translation, d, hlookup, hloop, htranslation, hrun, hrounds, hneighbours, -⟩ :=
    optimization_isSettled_iff {} (Nat.le_refl 2) (.nested 20)
  exact ⟨Nat.le_refl 2, loop, translation, d, hlookup, hloop, htranslation, hrun, hrounds, hneighbours,
    hrounds.mpr ⟨20, Nat.le_refl 20, hlayers⟩⟩

/-- With 21 layers the limit is too low by one round. -/
theorem not_isSettled_nested : (Circuit.nested 21).WellFormed ∧
    Registry.builtin.lookup .optimization "default" {} 2 =
      .ok [optimizationLoop [mergeRotations, cancelInverses] 20] ∧
    ∃ d, (optimizationLoop [mergeRotations, cancelInverses] 20).run (.nested 21) = .success d ∧ ¬ d.IsSettled := by
  obtain ⟨d, hrun, hsettled, -⟩ := isSettled_run_iff (.nested 21) 20
  refine ⟨Circuit.wellFormed_nested 21, rfl, d, hrun, fun h => ?_⟩
  obtain ⟨k, hk, hiterate⟩ := hsettled.mp h
  have hlayers : 21 ≤ k := Circuit.isSettled_iterate_nested_iff.mp hiterate
  omega

end Pass

end CircuitStages
