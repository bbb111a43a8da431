import CircuitStages.Proofs.Rewrite.Shrinking
import Mathlib.Data.List.Forall2

namespace CircuitStages

variable {α : Type} {join : Instruction α → Instruction α → Joined α} {i p q : Instruction α}
  {is output output' front : List (Instruction α)}

/-- Whether the gate `i` directly follows the gate `p` on all of its qubits, and touches no classical bits. -/
structure Neighbours (is : List (Instruction α)) (p i : Instruction α) : Prop where
  isGate_left : p.isGate
  isGate_right : i.isGate
  clbits_eq_nil : i.clbits = []
  qubits_ne_nil : i.qubits ≠ []
  subset : i.qubits ⊆ p.qubits
  width_eq : p.width = i.width
  adjacent : ∃ front between back, is = front ++ p :: (between ++ i :: back) ∧
    ∀ x ∈ between, x.qubits.Disjoint i.qubits

/-- Whether all neighbours stay apart. -/
def Settled (join : Instruction α → Instruction α → Joined α) (is : List (Instruction α)) : Prop :=
  ∀ p i, Neighbours is p i → join p i = .apart

theorem isJoinable_iff : isJoinable i ↔ i.isGate ∧ i.clbits = [] ∧ i.qubits ≠ [] := by
  simp [isJoinable, and_assoc]

theorem sharesQubit_of_covers (h : covers p i) (hne : i.qubits ≠ []) : sharesQubit p i = true := by
  obtain ⟨q, hq⟩ := List.exists_mem_of_ne_nil i.qubits hne
  rw [← Bool.not_eq_false, sharesQubit_eq_false_iff]
  exact fun hdisjoint => hdisjoint (covers_iff.mp h hq) hq

section Behind

/-- A gate stays apart from what stands before it exactly if it does so from its neighbour, if it has one. -/
theorem joinBack?_eq_none_iff (hne : i.qubits ≠ []) : joinBack? join i output = none ↔
    ∀ front p back, output = front ++ p :: back → (∀ x ∈ front, sharesQubit x i = false) → covers p i → p.isGate →
      p.width = i.width → join p i = .apart := by
  constructor
  · intro h front p back hsplit hfront hcovers hgate hwidth
    rw [hsplit, joinBack?_append hfront, Option.map_eq_none_iff, joinBack?, sharesQubit_of_covers hcovers hne, hcovers,
      hgate, hwidth] at h
    cases hjoin : join p i with
    | apart => rfl
    | nothing => simp [hjoin] at h
    | one q => simp [hjoin] at h
  · intro h
    cases hback : joinBack? join i output with
    | none => rfl
    | some joined =>
      obtain ⟨front, p, back, hsplit, hfront, hcovers, hgate, hwidth, hresult⟩ := joinBack?_eq_some hback
      have hapart := h front p back hsplit hfront hcovers hgate hwidth
      rcases hresult with ⟨hnothing, -⟩ | ⟨q, hone, -⟩
      · cases hapart.symm.trans hnothing
      · cases hapart.symm.trans hone

theorem peepholeStep_eq_cons_iff :
    peepholeStep join output i = i :: output ↔ (isJoinable i → joinBack? join i output = none) := by
  constructor
  · intro h hjoinable
    cases hback : joinBack? join i output with
    | none => rfl
    | some joined =>
      have hle := length_joinBack?_le hback
      rw [peepholeStep, if_pos hjoinable, hback, Option.getD_some] at h
      rw [h, List.length_cons] at hle
      omega
  · intro h
    rw [peepholeStep]
    split
    next hjoinable => rw [h hjoinable, Option.getD_none]
    next => rfl

/-- What stands in front of two outputs does not matter if neither has a partner for the gate. -/
theorem joinBack?_append_eq_none (h : joinBack? join i output = none → joinBack? join i output' = none)
    (hnone : joinBack? join i (front ++ output) = none) : joinBack? join i (front ++ output') = none := by
  induction front with
  | nil => exact h hnone
  | cons x front ih =>
    rw [List.cons_append, joinBack?] at hnone ⊢
    split at hnone
    next hpassed =>
      rw [if_pos hpassed]
      simpa using ih (by simpa using hnone)
    next hstop =>
      rw [if_neg hstop]
      split at hnone
      next hmatch =>
        rw [if_pos hmatch]
        cases hjoin : join x i with
        | apart => rfl
        | nothing => simp [hjoin] at hnone
        | one q => simp [hjoin] at hnone
      next hother => rw [if_neg hother]

end Behind

/-- Whether each instruction of an output, listed last one first, stays behind those before it. -/
def Unjoined (join : Instruction α → Instruction α → Joined α) : List (Instruction α) → Prop
  | [] => True
  | i :: output => peepholeStep join output i = i :: output ∧ Unjoined join output

theorem unjoined_iff_forall_split : Unjoined join output ↔
    ∀ later i earlier, output = later ++ i :: earlier → peepholeStep join earlier i = i :: earlier := by
  induction output with
  | nil => simp [Unjoined]
  | cons x output ih =>
    rw [Unjoined, ih]
    constructor
    · rintro ⟨hfirst, hrest⟩ later i earlier hsplit
      rcases List.cons_eq_append_iff.mp hsplit with ⟨-, hnone⟩ | ⟨later, rfl, hlater⟩
      · cases hnone
        exact hfirst
      · exact hrest later i earlier hlater
    · intro h
      exact ⟨h [] x output rfl, fun later i earlier hsplit => h (x :: later) i earlier (by rw [hsplit]; rfl)⟩

/-- An instruction list has no neighbours that are joined exactly if each instruction stays behind those before it. -/
theorem unjoined_reverse_iff : Unjoined join is.reverse ↔ Settled join is := by
  rw [unjoined_iff_forall_split]
  constructor
  · intro h p i hneighbours
    obtain ⟨front, between, back, hsplit, hdisjoint⟩ := hneighbours.adjacent
    have hbehind := h back.reverse i (between.reverse ++ p :: front.reverse) (by rw [hsplit]; simp)
    have hjoinable : isJoinable i :=
      isJoinable_iff.mpr ⟨hneighbours.isGate_right, hneighbours.clbits_eq_nil, hneighbours.qubits_ne_nil⟩
    have hnone := peepholeStep_eq_cons_iff.mp hbehind hjoinable
    refine (joinBack?_eq_none_iff hneighbours.qubits_ne_nil).mp hnone between.reverse p front.reverse rfl ?_
      (covers_iff.mpr hneighbours.subset) hneighbours.isGate_left hneighbours.width_eq
    intro x hx
    exact sharesQubit_eq_false_iff.mpr (hdisjoint x (List.mem_reverse.mp hx))
  · intro h later i earlier hsplit
    rw [peepholeStep_eq_cons_iff, isJoinable_iff]
    rintro ⟨hgate, hclbits, hne⟩
    rw [joinBack?_eq_none_iff hne]
    intro between p front hearlier hbetween hcovers hp hwidth
    refine h p i ⟨hp, hgate, hclbits, hne, covers_iff.mp hcovers, hwidth, front.reverse, between.reverse,
      later.reverse, ?_, fun x hx => sharesQubit_eq_false_iff.mp (hbetween x (List.mem_reverse.mp hx))⟩
    rw [← List.reverse_reverse is, hsplit, hearlier]
    simp

theorem walked_eq_reverse_iff : walked join is = is.reverse ↔ Unjoined join is.reverse := by
  induction is using List.reverseRecOn with
  | nil => simp [walked, Unjoined]
  | append_singleton is i ih =>
    rw [walked_concat, List.reverse_append, List.reverse_singleton, List.singleton_append, Unjoined]
    constructor
    · intro h
      have hsame : walked join is = is.reverse := by
        rcases peepholeStep_cases join (walked join is) i with hbehind | ⟨-, hback⟩
        · exact (List.cons_inj_right i).mp (hbehind.symm.trans h)
        · have hstep := length_joinBack?_le hback
          have hwalked := length_peephole_le join is
          rw [h, List.length_cons, List.length_reverse] at hstep
          rw [peephole_eq_reverse, List.length_reverse] at hwalked
          omega
      exact ⟨by rwa [hsame] at h, ih.mp hsame⟩
    · rintro ⟨hbehind, hrest⟩
      rw [ih.mpr hrest, hbehind]

/-- A walk leaves a circuit as it is exactly if all neighbours stay apart. -/
theorem peephole_eq_self_iff : peephole join is = is ↔ Settled join is := by
  rw [← unjoined_reverse_iff, ← walked_eq_reverse_iff, peephole_eq_reverse, List.reverse_eq_iff]

section Output

/-- Below instructions that pass over what has changed, they go on staying behind. -/
theorem Unjoined.replace (h : Unjoined join (front ++ output)) (h' : Unjoined join output')
    (hpass : ∀ x ∈ front, joinBack? join x output = none → joinBack? join x output' = none) :
    Unjoined join (front ++ output') := by
  induction front with
  | nil => exact h'
  | cons x front ih =>
    obtain ⟨hx, hrest⟩ := List.forall_mem_cons.mp hpass
    obtain ⟨hbehind, hfront⟩ := h
    refine ⟨peepholeStep_eq_cons_iff.mpr fun hjoinable => ?_, ih hfront hrest⟩
    exact joinBack?_append_eq_none hx (peepholeStep_eq_cons_iff.mp hbehind hjoinable)

/-- Whether a gate that takes the place of two others stays apart from all that the first one stays apart from. -/
def KeepsApart (join : Instruction α → Instruction α → Joined α) : Prop :=
  ∀ p i q, join p i = .one q → ∀ r, join r p = .apart → join r q = .apart

theorem joinBack?_replaced_eq_none (hqubits : q.qubits = p.qubits)
    (hapart : ∀ r, join r p = .apart → join r q = .apart) (h : joinBack? join p output = none) :
    joinBack? join q output = none := by
  have hshares (r : Instruction α) : sharesQubit r q = sharesQubit r p := by rw [sharesQubit, sharesQubit, hqubits]
  have hmatch (r : Instruction α) :
      (covers r q && r.isGate && r.width == q.width) = (covers r p && r.isGate && r.width == p.width) := by
    rw [covers, covers, Instruction.width, Instruction.width, Instruction.width, hqubits]
  induction output with
  | nil => rfl
  | cons r output ih =>
    rw [joinBack?, hshares, hmatch]
    rw [joinBack?] at h
    split at h
    next hpassed =>
      rw [if_pos hpassed]
      simpa using ih (by simpa using h)
    next hstop =>
      rw [if_neg hstop]
      split at h
      next hcovers =>
        rw [if_pos hcovers]
        split at h
        next hnone => rw [hapart r hnone]
        next => cases h
        next => cases h
      next hother => rw [if_neg hother]

/-- One step keeps the output unjoined: nothing behind the predecessor shares a qubit with it. -/
theorem Unjoined.peepholeStep (h : Unjoined join output) (hjoin : KeepsOperands join) (hapart : KeepsApart join)
    (hout : PlainGates output) (hi : i.isGate → i.IsPlain) : Unjoined join (peepholeStep join output i) := by
  rcases peepholeStep_cases join output i with hbehind | ⟨hjoinable, hback⟩
  · rw [hbehind]
    exact ⟨hbehind, h⟩
  · obtain ⟨front, p, back, rfl, hfront, hcovers, hgate, hwidth, hresult⟩ := joinBack?_eq_some hback
    have hplain : p.IsPlain := hout p (by simp) hgate
    have hsame := mem_qubits_of_covers hcovers hwidth (hi (isJoinable_iff.mp hjoinable).1).qubits_nodup
    have hpassed : ∀ x ∈ front, ∀ r : Instruction α, r.qubits = p.qubits → sharesQubit r x = false := by
      intro x hx r hr
      rw [sharesQubit_eq_false_iff, hr]
      exact fun q hp hxq => sharesQubit_eq_false_iff.mp (hfront x hx) hxq ((hsame q).mp hp)
    have hrest := unjoined_iff_forall_split.mp h
    have hbehind := hrest front p back rfl
    have hunder : Unjoined join back := by
      refine unjoined_iff_forall_split.mpr fun later j earlier hsplit => hrest (front ++ p :: later) j earlier ?_
      rw [hsplit, List.append_assoc, List.cons_append]
    rcases hresult with ⟨-, hjoined⟩ | ⟨q, hone, hjoined⟩
    · rw [hjoined]
      refine h.replace hunder fun x hx hnone => ?_
      rw [joinBack?, hpassed x hx p rfl] at hnone
      simpa using hnone
    · rw [hjoined]
      have hqubits : q.qubits = p.qubits := by
        obtain ⟨params, rfl⟩ := hjoin p i q hone
        rfl
      have hreplaced : CircuitStages.peepholeStep join back q = q :: back := by
        rw [peepholeStep_eq_cons_iff] at hbehind ⊢
        intro hq
        have hp : isJoinable p :=
          isJoinable_iff.mpr ⟨hgate, hplain.clbits_eq_nil, hqubits ▸ (isJoinable_iff.mp hq).2.2⟩
        exact joinBack?_replaced_eq_none hqubits (hapart p i q hone) (hbehind hp)
      refine h.replace ⟨hreplaced, hunder⟩ fun x hx hnone => ?_
      rw [joinBack?, hpassed x hx p rfl] at hnone
      rw [joinBack?, hpassed x hx q hqubits]
      simpa using hnone

theorem unjoined_walked (hjoin : KeepsOperands join) (hapart : KeepsApart join) (his : PlainGates is) :
    Unjoined join (walked join is) := by
  induction is using List.reverseRecOn with
  | nil => trivial
  | append_singleton is i ih =>
    obtain ⟨hbefore, hi⟩ := List.forall_mem_append.mp his
    have hout : PlainGates (walked join is) := by
      intro x hx
      exact hjoin.plainGates hbefore x (by rwa [peephole_eq_reverse, List.mem_reverse])
    rw [walked_concat]
    exact (ih hbefore).peepholeStep hjoin hapart hout (hi i (List.mem_singleton_self i))

/-- All neighbours in the output of a walk stay apart. -/
theorem KeepsOperands.settled_peephole (hjoin : KeepsOperands join) (hapart : KeepsApart join) (his : PlainGates is) :
    Settled join (peephole join is) := by
  rw [← unjoined_reverse_iff, peephole_eq_reverse, List.reverse_reverse]
  exact unjoined_walked hjoin hapart his

end Output

section Replaced

/-- Where joined gates are related to the first one of the two, the output of a walk is related to a part of the list. -/
theorem sublistForall₂_peephole {R : Instruction α → Instruction α → Prop} [Std.Refl R] [IsTrans (Instruction α) R]
    (hjoin : ∀ p i q, join p i = .one q → R q p) (is : List (Instruction α)) :
    List.SublistForall₂ R (peephole join is) is := by
  have hstep (output : List (Instruction α)) (i : Instruction α) :
      List.SublistForall₂ R (peepholeStep join output i) (i :: output) := by
    rcases peepholeStep_cases join output i with hbehind | ⟨-, hback⟩
    · rw [hbehind]
      exact Std.Refl.refl _
    · obtain ⟨front, p, back, rfl, -, -, -, -, hresult⟩ := joinBack?_eq_some hback
      refine .cons_right ?_
      rcases hresult with ⟨-, hjoined⟩ | ⟨q, hone, hjoined⟩
      · rw [hjoined]
        exact ((List.sublist_cons_self p back).append_left front).sublistForall₂
      · rw [hjoined, List.sublistForall₂_iff]
        refine ⟨front ++ p :: back, ?_, .refl _⟩
        exact List.rel_append (List.forall₂_refl front) (.cons (hjoin p i q hone) (List.forall₂_refl back))
  have hwalked : List.SublistForall₂ R (walked join is) is.reverse := by
    induction is using List.reverseRecOn with
    | nil => exact .nil
    | append_singleton is i ih =>
      rw [walked_concat, List.reverse_append, List.reverse_singleton, List.singleton_append]
      exact IsTrans.trans _ _ _ (hstep (walked join is) i) (.cons (Std.Refl.refl i) ih)
  rw [List.sublistForall₂_iff] at hwalked ⊢
  obtain ⟨kept, hkept, hsub⟩ := hwalked
  refine ⟨kept.reverse, ?_, ?_⟩
  · rw [peephole_eq_reverse]
    exact List.forall₂_reverse_iff.mpr hkept
  · rw [← List.reverse_reverse is]
    exact hsub.reverse

/-- Whether an instruction is a given one, or a rotation of the same name on the same qubits in place of it. -/
def StandsFor (j i : Instruction α) : Prop :=
  j = i ∨ (i.name ∈ rotationGates ∧ ∃ angle, j = .gate i.name i.qubits [angle])

instance : Std.Refl (StandsFor (α := α)) := ⟨fun _ => .inl rfl⟩

instance : IsTrans (Instruction α) StandsFor where
  trans a b c hab hbc := by
    rcases hab with rfl | ⟨hname, angle, rfl⟩
    · exact hbc
    · rcases hbc with rfl | ⟨hrotation, other, rfl⟩
      · exact .inr ⟨hname, angle, rfl⟩
      · exact .inr ⟨hrotation, angle, rfl⟩

theorem sublist_cancelInverses (is : List (Instruction α)) : (cancelInverses is).Sublist is := by
  have hsub : ((cancelInverses is).filterMap some).Sublist (is.filterMap some) :=
    sublist_filterMap_peephole (fun _ _ _ hone => absurd hone cancelPair_ne_one) is
  rwa [List.filterMap_some, List.filterMap_some] at hsub

theorem keepsApart_cancelPair : KeepsApart (cancelPair : Instruction α → Instruction α → Joined α) :=
  fun _ _ _ hone => absurd hone cancelPair_ne_one

section Rotations

variable [Angle α]

theorem mergePair_eq_apart_iff : mergePair p i = .apart ↔
    ¬ (p.name = i.name ∧ p.name ∈ rotationGates ∧ sameOperands p i ∧ p.params.length = 1 ∧ i.params.length = 1) := by
  rw [mergePair]
  split
  next hmergeable =>
    simp only [Bool.and_eq_true, beq_iff_eq, List.contains_iff_mem] at hmergeable
    obtain ⟨⟨hname, hrotation⟩, hoperands⟩ := hmergeable
    split
    next a b hp hi =>
      rw [hp, hi]
      split <;> simp [← hname, hrotation, hoperands]
    next hother =>
      simp only [true_iff, not_and]
      intro _ _ _ hp hi
      obtain ⟨a, ha⟩ := List.length_eq_one_iff.mp hp
      obtain ⟨b, hb⟩ := List.length_eq_one_iff.mp hi
      exact hother a b ha hb
  next hother =>
    simp only [Bool.and_eq_true, beq_iff_eq, List.contains_iff_mem, and_assoc] at hother
    simp only [true_iff]
    exact fun h => hother ⟨h.1, h.2.1, h.2.2.1⟩

theorem keepsApart_mergePair : KeepsApart (mergePair : Instruction α → Instruction α → Joined α) := by
  intro p i q hone r hapart
  obtain ⟨-, hparams, angle, rfl⟩ := mergePair_eq_one hone
  rw [mergePair_eq_apart_iff] at hapart ⊢
  rintro ⟨hname, hrotation, hoperands, hr, -⟩
  exact hapart ⟨hname, hrotation, hoperands, hr, hparams⟩

theorem exists_forall₂_mergeRotations (is : List (Instruction α)) :
    ∃ kept, kept.Sublist is ∧ List.Forall₂ StandsFor (mergeRotations is) kept := by
  have hstands : ∀ p i q : Instruction α, mergePair p i = .one q → StandsFor q p := by
    intro p i q hone
    obtain ⟨hrotation, -, hrotated⟩ := mergePair_eq_one hone
    exact .inr ⟨hrotation, hrotated⟩
  obtain ⟨kept, hkept, hsub⟩ := List.sublistForall₂_iff.mp (sublistForall₂_peephole hstands is)
  exact ⟨kept, hsub, hkept⟩

end Rotations

end Replaced

theorem Joining.keepsApart (j : Joining) : KeepsApart j.combine := by
  cases j with
  | inverses => exact keepsApart_cancelPair
  | rotations => exact keepsApart_mergePair

namespace Pass

variable {c : Circuit Float}

/-- On circuits whose gates touch no classical bits, one walk leaves no neighbours that it would join, and a second walk
changes nothing. Cancelling leaves a part of the instructions; merging does so up to rotations with other angles. -/
theorem peephole_reaches_normalForm (hc : c.WellFormed) (hclbits : ∀ i ∈ c.instructions, i.isGate → i.clbits = []) :
    (∃ d, cancelInverses.run c = .success d ∧ cancelInverses.run d = .success d ∧
      Settled cancelPair d.instructions ∧ d.instructions.Sublist c.instructions) ∧
    ∃ d, mergeRotations.run c = .success d ∧ mergeRotations.run d = .success d ∧
      Settled mergePair d.instructions ∧
      ∃ kept, kept.Sublist c.instructions ∧ List.Forall₂ StandsFor d.instructions kept := by
  have hwalk (j : Joining) : ∃ d, d.instructions = peephole j.combine c.instructions ∧ j.pass.run c = .success d ∧
      j.pass.run d = .success d ∧ Settled j.combine d.instructions := by
    have hsettled := j.keepsOperands.settled_peephole j.keepsApart (hc.plainGates hclbits)
    refine ⟨_, rfl, j.run_pass c, ?_, hsettled⟩
    rw [j.run_pass]
    exact congrArg (fun is => Outcome.success (c.withInstructions is)) (peephole_eq_self_iff.mpr hsettled)
  constructor
  · obtain ⟨d, hd, hrun, hagain, hsettled⟩ := hwalk .inverses
    exact ⟨d, hrun, hagain, hsettled, hd ▸ sublist_cancelInverses c.instructions⟩
  · obtain ⟨d, hd, hrun, hagain, hsettled⟩ := hwalk .rotations
    exact ⟨d, hrun, hagain, hsettled, hd ▸ exists_forall₂_mergeRotations c.instructions⟩

end Pass

/-- Rotations across a gate on another qubit, around two pairs of inverse gates inside each other. -/
def Circuit.rotating : Circuit Float :=
  (empty "rotating" 3 1).withInstructions
    [.rz 0.25 0, .h 1, .rz 0.5 0, .cx 0 1, .measure 2 0, .cx 0 1, .h 1, .rz (-0.75) 0]

theorem Circuit.wellFormed_rotating : rotating.WellFormed := by
  constructor <;>
    simp [rotating, withInstructions, Circuit.empty, Instruction.rz, Instruction.h, Instruction.cx, Instruction.measure,
      Instruction.gate, Instruction.width, singleQubitNames]

theorem Pass.peephole_reaches_normalForm_rotating : Circuit.rotating.WellFormed ∧
    (∀ i ∈ Circuit.rotating.instructions, i.isGate → i.clbits = []) ∧
    (∃ d, cancelInverses.run .rotating = .success d ∧ cancelInverses.run d = .success d ∧
      Settled cancelPair d.instructions ∧ d.instructions.Sublist Circuit.rotating.instructions) ∧
    ∃ d, mergeRotations.run .rotating = .success d ∧ mergeRotations.run d = .success d ∧
      Settled mergePair d.instructions ∧
      ∃ kept, kept.Sublist Circuit.rotating.instructions ∧ List.Forall₂ StandsFor d.instructions kept := by
  have hclbits : ∀ i ∈ Circuit.rotating.instructions, i.isGate → i.clbits = [] := by decide
  exact ⟨Circuit.wellFormed_rotating, hclbits, peephole_reaches_normalForm Circuit.wellFormed_rotating hclbits⟩

end CircuitStages
