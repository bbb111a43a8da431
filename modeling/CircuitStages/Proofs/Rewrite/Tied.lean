import CircuitStages.Proofs.Rewrite.Peephole

namespace CircuitStages

variable {α : Type} {join : Instruction α → Instruction α → Joined α} {i : Instruction α}
  {is output joined : List (Instruction α)}

/-- Whether an instruction reads or writes classical bits. -/
def Instruction.isTied (i : Instruction α) : Bool := !i.clbits.isEmpty

/-- The instructions that touch classical bits, in their order. -/
def tied (is : List (Instruction α)) : List (Instruction α) := is.filter (·.isTied)

/-- The same way of joining, but for predecessors that touch classical bits, which stay apart. -/
def sparing (join : Instruction α → Instruction α → Joined α) (p i : Instruction α) : Joined α :=
  if p.isTied then .apart else join p i

theorem isTied_eq_false_of_isJoinable (h : isJoinable i) : i.isTied = false := by
  simp only [isJoinable, Bool.and_eq_true] at h
  rw [Instruction.isTied, h.1.2, Bool.not_true]

theorem KeepsOperands.isTied_eq_false {p q : Instruction α} (hjoin : KeepsOperands join) (h : join p i = .one q) :
    q.isTied = false := by
  obtain ⟨params, rfl⟩ := hjoin p i q h
  rfl

section Kept

variable {P : Instruction α → Bool}

/-- What is never joined, neither as a gate nor as its predecessor, is kept in its order. -/
theorem filter_peephole (hapart : ∀ p i, p.isGate → P p → join p i = .apart)
    (hnew : ∀ p i q, join p i = .one q → P q = false) (hfree : ∀ i, isJoinable i → P i = false)
    (is : List (Instruction α)) : (peephole join is).filter P = is.filter P := by
  have hback {i : Instruction α} {output joined : List (Instruction α)} (h : joinBack? join i output = some joined) :
      joined.filter P = output.filter P := by
    obtain ⟨front, p, back, rfl, -, -, hgate, -, hresult⟩ := joinBack?_eq_some h
    have hp : P p = false := by
      rw [← Bool.not_eq_true]
      intro hkept
      rw [hapart p i hgate hkept] at hresult
      rcases hresult with ⟨hnothing, -⟩ | ⟨q, hone, -⟩
      · cases hnothing
      · cases hone
    rcases hresult with ⟨-, rfl⟩ | ⟨q, hone, rfl⟩
    · simp [hp]
    · simp [hp, hnew p i q hone]
  have hstep (output : List (Instruction α)) (i : Instruction α) :
      (peepholeStep join output i).filter P = (i :: output).filter P := by
    rcases peepholeStep_cases join output i with hbehind | ⟨hjoinable, hjoined⟩
    · rw [hbehind]
    · rw [hback hjoined, List.filter_cons_of_neg (by simp [hfree i hjoinable])]
  rw [peephole_eq_reverse, List.filter_reverse]
  induction is using List.reverseRecOn with
  | nil => rfl
  | append_singleton is i ih =>
    rw [walked_concat, hstep, ← List.singleton_append, List.filter_append, List.reverse_append, ih, List.filter_append]
    cases hi : P i <;> simp [hi]

end Kept

/-- With both guards nothing is lost that touches classical bits. -/
theorem tied_peephole_sparing (hjoin : KeepsOperands join) (is : List (Instruction α)) :
    tied (peephole (sparing join) is) = tied is := by
  apply filter_peephole
  · intro p i _ hp
    exact if_pos hp
  · intro p i q hone
    unfold sparing at hone
    split at hone
    · cases hone
    · exact hjoin.isTied_eq_false hone
  · intro i
    exact isTied_eq_false_of_isJoinable

theorem KeepsOperands.guard_isTied {p q : Instruction α} (hjoin : KeepsOperands join) (h : join p i = .one q) :
    Option.guard Instruction.isTied q = none :=
  Option.guard_eq_none_iff.mpr (hjoin.isTied_eq_false h)

/-- The walk never adds, changes or moves instructions that touch classical bits. -/
theorem KeepsOperands.tied_peephole (hjoin : KeepsOperands join) (is : List (Instruction α)) :
    (tied (peephole join is)).Sublist (tied is) := by
  unfold tied
  rw [← List.filterMap_eq_filter]
  exact sublist_filterMap_peephole (fun _ _ _ hone => .inl (hjoin.guard_isTied hone)) is

theorem KeepsOperands.tied_peepholeStep (hjoin : KeepsOperands join) (output : List (Instruction α))
    (i : Instruction α) : (tied (peepholeStep join output i)).Sublist (tied (i :: output)) := by
  unfold tied
  rw [← List.filterMap_eq_filter]
  exact sublist_filterMap_peepholeStep (fun _ _ _ hone => .inl (hjoin.guard_isTied hone)) output i

/-- The missing guard makes no difference to a gate, or costs an instruction that touches classical bits. -/
theorem KeepsOperands.joinBack?_sparing (hjoin : KeepsOperands join) (i : Instruction α)
    (output : List (Instruction α)) : joinBack? (sparing join) i output = joinBack? join i output ∨
      ∃ joined, joinBack? join i output = some joined ∧ (tied joined).length < (tied output).length := by
  induction output with
  | nil => exact .inl rfl
  | cons p output ih =>
    rw [joinBack?, joinBack?]
    by_cases hpassed : !sharesQubit p i
    · rw [if_pos hpassed, if_pos hpassed]
      rcases ih with hsame | ⟨joined, hjoined, hless⟩
      · exact .inl (by rw [hsame])
      · refine .inr ⟨p :: joined, by rw [hjoined]; rfl, ?_⟩
        cases hp : p.isTied <;> simpa [tied, hp] using hless
    · rw [if_neg hpassed, if_neg hpassed]
      by_cases hmatch : covers p i && p.isGate && p.width == i.width
      · rw [if_pos hmatch, if_pos hmatch]
        by_cases hp : p.isTied
        · rw [sparing, if_pos hp]
          cases hone : join p i with
          | apart => exact .inl rfl
          | nothing => exact .inr ⟨output, rfl, by simp [tied, hp]⟩
          | one q => exact .inr ⟨q :: output, rfl, by simp [tied, hp, hjoin.isTied_eq_false hone]⟩
        · rw [sparing, if_neg hp]
          exact .inl rfl
      · rw [if_neg hmatch, if_neg hmatch]
        exact .inl rfl

theorem KeepsOperands.peepholeStep_sparing (hjoin : KeepsOperands join) (output : List (Instruction α))
    (i : Instruction α) : peepholeStep (sparing join) output i = peepholeStep join output i ∨
      (tied (peepholeStep join output i)).length < (tied (i :: output)).length := by
  unfold peepholeStep
  split
  next hjoinable =>
    rcases hjoin.joinBack?_sparing i output with hsame | ⟨joined, hjoined, hless⟩
    · exact .inl (by rw [hsame])
    · right
      rw [hjoined]
      simpa [tied, isTied_eq_false_of_isJoinable hjoinable] using hless
  next => exact .inl rfl

theorem length_tied_append (is js : List (Instruction α)) :
    (tied (is ++ js)).length = (tied is).length + (tied js).length := by
  rw [tied, List.filter_append, List.length_append]
  rfl

/-- The walk goes as if it had both guards, or it loses something tied to classical bits and never gets it back. -/
theorem KeepsOperands.walked_sparing (hjoin : KeepsOperands join) (is : List (Instruction α)) :
    walked (sparing join) is = walked join is ∨ (tied (walked join is)).length < (tied is).length := by
  induction is using List.reverseRecOn with
  | nil => exact .inl rfl
  | append_singleton is i ih =>
    have hbefore : (tied (walked join is)).length ≤ (tied is).length := by
      have hle := (hjoin.tied_peephole is).length_le
      simpa [tied, peephole_eq_reverse, List.filter_reverse] using hle
    have hbehind := length_tied_append [i] (walked join is)
    rw [walked_concat, walked_concat, length_tied_append]
    rw [List.singleton_append] at hbehind
    rcases hjoin.peepholeStep_sparing (walked join is) i with hstep | hless
    · rcases ih with hsame | hlost
      · left
        rw [hsame, hstep]
      · right
        have hle := (hjoin.tied_peepholeStep (walked join is) i).length_le
        omega
    · right
      omega

theorem KeepsOperands.peephole_sparing (hjoin : KeepsOperands join) (h : tied (peephole join is) = tied is) :
    peephole (sparing join) is = peephole join is := by
  have hlength : (tied (walked join is)).length = (tied is).length := by
    rw [← h, peephole_eq_reverse, tied, tied, List.filter_reverse, List.length_reverse]
  rcases hjoin.walked_sparing is with hsame | hlost
  · rw [peephole_eq_reverse, peephole_eq_reverse, hsame]
  · omega

namespace Joining

/-- The names of the gates that are joined with others. -/
def names : Joining → List String
  | inverses => selfInverseGates ++ inversePairs.map (·.1) ++ inversePairs.map (·.2)
  | rotations => rotationGates

theorem mem_names_of_areInverse {p i : Instruction Float} (h : areInverse p i) : p.name ∈ inverses.names := by
  rw [areInverse] at h
  simp only [names, List.mem_append, List.mem_map, Prod.exists, exists_and_right, exists_eq_right]
  split at h
  next hself =>
    simp only [Bool.and_eq_true, List.contains_iff_mem] at hself
    exact .inl (.inl hself.2)
  next =>
    simp only [Bool.and_eq_true, Bool.or_eq_true, List.contains_iff_mem] at h
    rcases h.2 with hfirst | hsecond
    · exact .inl (.inr ⟨_, hfirst⟩)
    · exact .inr ⟨_, hsecond⟩

theorem combine_eq_apart {j : Joining} {p : Instruction Float} (hp : p.name ∉ j.names) (i : Instruction Float) :
    j.combine p i = .apart := by
  cases j with
  | inverses => exact if_neg fun h => hp (mem_names_of_areInverse h)
  | rotations =>
    apply if_neg
    simp only [Bool.and_eq_true, List.contains_iff_mem]
    exact fun h => hp h.1.2

/-- Whether an instruction touches classical bits and is no gate of a kind that is joined. -/
def leaves (j : Joining) (i : Instruction Float) : Bool := i.isTied && !(i.isGate && j.names.contains i.name)

/-- The passes that join neighbouring gates succeed. They keep all instructions that touch classical bits, unchanged and
in their order, exactly where the output is that of the walk that spares such predecessors. In any case they add none,
change none and move none, and they lose none but gates of the kinds that they join. -/
theorem tied_run_eq_iff (j : Joining) (c : Circuit Float) : ∃ d, j.pass.run c = .success d ∧
    (tied d.instructions = tied c.instructions ↔ d.instructions = peephole (sparing j.combine) c.instructions) ∧
    (tied d.instructions).Sublist (tied c.instructions) ∧
    d.instructions.filter j.leaves = c.instructions.filter j.leaves := by
  refine ⟨_, j.run_pass c, ⟨?_, ?_⟩, j.keepsOperands.tied_peephole c.instructions, ?_⟩
  · intro h
    exact (j.keepsOperands.peephole_sparing h).symm
  · intro h
    rw [h]
    exact tied_peephole_sparing j.keepsOperands c.instructions
  · apply filter_peephole
    · intro p i hgate hp
      apply combine_eq_apart
      simp only [leaves, hgate, Bool.true_and, Bool.and_eq_true, Bool.not_eq_true', List.contains_eq_mem,
        decide_eq_false_iff_not] at hp
      exact hp.2
    · intro p i q hone
      rw [leaves, j.keepsOperands.isTied_eq_false hone, Bool.false_and]
    · intro i hi
      rw [leaves, isTied_eq_false_of_isJoinable hi, Bool.false_and]

/-- A conditioned gate and an unconditioned one that is joined with it. -/
def conditioned : Joining → Circuit Float
  | inverses => (Circuit.empty "conditioned" 1 1).withInstructions [⟨"x", [0], [0], []⟩, .x 0]
  | rotations => (Circuit.empty "conditioned" 1 1).withInstructions [⟨"rz", [0], [0], [0.25]⟩, .rz 0.5 0]

theorem wellFormed_conditioned (j : Joining) : j.conditioned.WellFormed := by
  cases j <;> constructor <;>
    simp [conditioned, Circuit.withInstructions, Circuit.empty, Instruction.x, Instruction.rz, Instruction.gate,
      singleQubitNames]

/-- Whether the pass succeeds on a well-formed circuit and loses what touches classical bits. -/
def LosesTied (c : Circuit Float) (j : Joining) : Prop :=
  c.WellFormed ∧ ∃ d, j.pass.run c = .success d ∧ tied d.instructions ≠ tied c.instructions

/-- Both passes lose the conditioned gate. -/
theorem losesTied_conditioned : inverses.LosesTied inverses.conditioned ∧ rotations.LosesTied rotations.conditioned := by
  constructor
  · refine ⟨wellFormed_conditioned _, _, run_pass _ _, ?_⟩
    decide
  · refine ⟨wellFormed_conditioned _, _, run_pass _ _, ?_⟩
    -- Whether or not the sum of the angles is negligible, the predecessor is gone.
    have hjoined : mergePair ⟨"rz", [0], [0], [(0.25 : Float)]⟩ (.rz 0.5 0) =
        if Angle.negligible ((0.25 : Float) + 0.5) then .nothing else .one (.rz (0.25 + 0.5) 0) := rfl
    have hnone : tied (peephole mergePair [⟨"rz", [0], [0], [(0.25 : Float)]⟩, .rz 0.5 0]) = [] := by
      change tied ((match mergePair ⟨"rz", [0], [0], [(0.25 : Float)]⟩ (.rz 0.5 0) with
        | .apart => none
        | .nothing => some []
        | .one q => some [q]).getD [.rz 0.5 0, ⟨"rz", [0], [0], [0.25]⟩]).reverse = []
      rw [hjoined]
      split_ifs <;> rfl
    intro h
    exact absurd (hnone.symm.trans h) (by decide)

end Joining

end CircuitStages
