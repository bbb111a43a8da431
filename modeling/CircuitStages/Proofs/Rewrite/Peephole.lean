import CircuitStages.Proofs.Circuit.Checks
import CircuitStages.Proofs.Pass.Runs
import CircuitStages.Proofs.Rewrite.Links
import Mathlib.Algebra.BigOperators.Group.List.Basic
import Mathlib.Algebra.Group.End
import Mathlib.Data.List.Perm.Subperm

namespace CircuitStages

variable {α : Type} {M : Type*} [Monoid M] {φ : Instruction α → M} {a b i j : Instruction α}
  {is output joined : List (Instruction α)} {join : Instruction α → Instruction α → Joined α}

theorem sharesQubit_eq_false_iff : sharesQubit a b = false ↔ a.qubits.Disjoint b.qubits := by
  simp [sharesQubit, List.Disjoint]

theorem covers_iff : covers a b ↔ b.qubits ⊆ a.qubits := by
  simp [covers, List.subset_def]

theorem mem_qubits_of_covers (hcovers : covers a b) (hwidth : a.width = b.width) (hnd : b.qubits.Nodup) (q : Nat) :
    q ∈ a.qubits ↔ q ∈ b.qubits :=
  (((List.subperm_of_subset hnd (covers_iff.mp hcovers)).perm_of_length_le hwidth.le).mem_iff).symm

/-- The walk back passes over what shares no qubit. -/
theorem joinBack?_append {front rest : List (Instruction α)} (hfront : ∀ x ∈ front, sharesQubit x i = false) :
    joinBack? join i (front ++ rest) = (joinBack? join i rest).map (front ++ ·) := by
  induction front with
  | nil => simp
  | cons x front ih =>
    obtain ⟨hx, hrest⟩ := List.forall_mem_cons.mp hfront
    rw [List.cons_append, joinBack?, hx, ih hrest]
    simp [Function.comp_def]

theorem areInverse_cases (h : areInverse a b) : (a.name = b.name ∧ sameOperands a b) ∨
    (a.name, b.name) ∈ inversePairs ∨ (b.name, a.name) ∈ inversePairs := by
  rw [areInverse] at h
  split at h
  next hself =>
    simp only [Bool.and_eq_true, beq_iff_eq] at hself
    exact .inl ⟨hself.1, h⟩
  next =>
    simp only [Bool.and_eq_true, Bool.or_eq_true, List.contains_iff_mem] at h
    exact .inr h.2

/-- Gates on distinct qubits that touch no classical bits. -/
structure Instruction.IsPlain (i : Instruction α) : Prop where
  isGate : i.isGate
  clbits_eq_nil : i.clbits = []
  qubits_nodup : i.qubits.Nodup

/-- Whether all gates of a list are plain. The other instructions may be of any kind. -/
def PlainGates (is : List (Instruction α)) : Prop := ∀ i ∈ is, i.isGate → i.IsPlain

/-- The laws that joining gates relies on, for an interpretation of instructions in a monoid. -/
structure GateLaws [Angle α] (φ : Instruction α → M) : Prop where
  commute : ∀ g i, g.IsPlain → g.qubits.Disjoint i.qubits → φ g * φ i = φ i * φ g
  mul_inverse : ∀ a b, a.IsPlain → b.IsPlain → areInverse a b → φ a * φ b = 1
  mul_rotation : ∀ a b p q, a.IsPlain → b.IsPlain → a.name = b.name → a.name ∈ rotationGates → sameOperands a b →
    a.params = [p] → b.params = [q] →
      φ a * φ b = if Angle.negligible (p + q) then 1 else φ (.gate a.name a.qubits [p + q])

/-- Whether what becomes of two gates has the value of their product. -/
def Joined.HasValue (φ : Instruction α → M) (v : M) : Joined α → Prop
  | .apart => True
  | .nothing => v = 1
  | .one i => v = φ i

/-- Whether joined gates keep the name and the qubits of the first one. -/
def KeepsOperands (join : Instruction α → Instruction α → Joined α) : Prop :=
  ∀ a b j, join a b = .one j → ∃ params, j = .gate a.name a.qubits params

theorem keepsOperands_cancelPair : KeepsOperands (cancelPair : Instruction α → Instruction α → Joined α) :=
  fun _ _ _ hone => absurd hone cancelPair_ne_one

theorem keepsOperands_mergePair [Angle α] : KeepsOperands (mergePair : Instruction α → Instruction α → Joined α) := by
  intro a b j hone
  obtain ⟨-, -, angle, hj⟩ := mergePair_eq_one hone
  exact ⟨[angle], hj⟩

theorem GateLaws.hasValue_cancelPair [Angle α] (hφ : GateLaws φ) (ha : a.IsPlain) (hb : b.IsPlain) :
    (cancelPair a b).HasValue φ (φ a * φ b) := by
  rw [cancelPair]
  split
  next h => exact hφ.mul_inverse a b ha hb h
  next => trivial

theorem GateLaws.hasValue_mergePair [Angle α] (hφ : GateLaws φ) (ha : a.IsPlain) (hb : b.IsPlain) :
    (mergePair a b).HasValue φ (φ a * φ b) := by
  rw [mergePair]
  split
  next h =>
    simp only [Bool.and_eq_true, beq_iff_eq, List.contains_iff_mem] at h
    obtain ⟨⟨hname, hrotation⟩, hoperands⟩ := h
    split
    next p q hp hq =>
      have hmul := hφ.mul_rotation a b p q ha hb hname hrotation hoperands hp hq
      split
      next hsmall => rwa [if_pos hsmall] at hmul
      next hlarge => rwa [if_neg hlarge] at hmul
    next => trivial
  next => trivial

theorem KeepsOperands.isPlain (hjoin : KeepsOperands join) (h : join a b = .one j) (ha : a.isGate → a.IsPlain)
    (hj : j.isGate) : j.IsPlain := by
  obtain ⟨params, rfl⟩ := hjoin a b j h
  exact ⟨hj, rfl, (ha hj).qubits_nodup⟩

theorem KeepsOperands.plainGates (hjoin : KeepsOperands join) (his : PlainGates is) : PlainGates (peephole join is) :=
  forall_mem_peephole (fun _ _ _ h ha => hjoin.isPlain h ha) his

/-- A gate that was joined with its predecessor counts as put behind the output. -/
theorem prod_joinBack? (hcommute : ∀ g i, g.IsPlain → g.qubits.Disjoint i.qubits → φ g * φ i = φ i * φ g)
    (hvalue : ∀ p, p.IsPlain → (join p i).HasValue φ (φ p * φ i)) (hi : i.IsPlain) (hout : PlainGates output)
    (h : joinBack? join i output = some joined) :
    (joined.reverse.map φ).prod = (output.reverse.map φ).prod * φ i := by
  induction output generalizing joined with
  | nil => cases h
  | cons p earlier ih =>
    obtain ⟨hp, hearlier⟩ := List.forall_mem_cons.mp hout
    have hproduct (is : List (Instruction α)) (j : Instruction α) :
        ((j :: is).reverse.map φ).prod = (is.reverse.map φ).prod * φ j := by
      rw [List.reverse_cons, List.map_append, List.prod_append, List.map_singleton, List.prod_singleton]
    rw [joinBack?] at h
    split at h
    next hdisjoint =>
      -- The predecessor lies further back, and the gate changes places with `p`.
      obtain ⟨rest, hrest, rfl⟩ := Option.map_eq_some_iff.mp h
      have hdisjoint : p.qubits.Disjoint i.qubits := sharesQubit_eq_false_iff.mp (by simpa using hdisjoint)
      calc ((p :: rest).reverse.map φ).prod
          = (rest.reverse.map φ).prod * φ p := hproduct rest p
        _ = (earlier.reverse.map φ).prod * φ i * φ p := by rw [ih hearlier hrest]
        _ = (earlier.reverse.map φ).prod * φ p * φ i := by
            rw [mul_assoc, hcommute i p hi (List.disjoint_comm.mp hdisjoint), ← mul_assoc]
        _ = ((p :: earlier).reverse.map φ).prod * φ i := by rw [hproduct]
    next =>
      split at h
      next hcovers =>
        have hgate : p.isGate := by
          simp only [Bool.and_eq_true] at hcovers
          exact hcovers.1.2
        have hvalue := hvalue p (hp hgate)
        split at h
        next => cases h
        next hnothing =>
          cases h
          have hone : φ p * φ i = 1 := by rwa [hnothing] at hvalue
          rw [hproduct, mul_assoc, hone, mul_one]
        next j hj =>
          cases h
          have hone : φ p * φ i = φ j := by rwa [hj] at hvalue
          rw [hproduct, hproduct, mul_assoc, hone]
      next => cases h

theorem prod_peepholeStep (hcommute : ∀ g i, g.IsPlain → g.qubits.Disjoint i.qubits → φ g * φ i = φ i * φ g)
    (hvalue : ∀ a b, a.IsPlain → b.IsPlain → (join a b).HasValue φ (φ a * φ b)) (hout : PlainGates output)
    (hi : i.isGate → i.IsPlain) :
    ((peepholeStep join output i).reverse.map φ).prod = (output.reverse.map φ).prod * φ i := by
  have hbehind : ((i :: output).reverse.map φ).prod = (output.reverse.map φ).prod * φ i := by
    rw [List.reverse_cons, List.map_append, List.prod_append, List.map_singleton, List.prod_singleton]
  rw [peepholeStep]
  split
  next hjoinable =>
    have hgate : i.isGate := by
      simp only [isJoinable, Bool.and_eq_true] at hjoinable
      exact hjoinable.1.1
    cases hback : joinBack? join i output with
    | none => exact hbehind
    | some joined => exact prod_joinBack? hcommute (fun p hp => hvalue p i hp (hi hgate)) (hi hgate) hout hback
  next => exact hbehind

theorem prod_peephole (hcommute : ∀ g i, g.IsPlain → g.qubits.Disjoint i.qubits → φ g * φ i = φ i * φ g)
    (hvalue : ∀ a b, a.IsPlain → b.IsPlain → (join a b).HasValue φ (φ a * φ b)) (hjoin : KeepsOperands join)
    (his : PlainGates is) : ((peephole join is).map φ).prod = (is.map φ).prod := by
  have walk (output : List (Instruction α)) (hout : PlainGates output) :
      ((is.foldl (peepholeStep join) output).reverse.map φ).prod = (output.reverse.map φ).prod * (is.map φ).prod := by
    induction is generalizing output with
    | nil => simp
    | cons i is ih =>
      obtain ⟨hi, hrest⟩ := List.forall_mem_cons.mp his
      have hstep : PlainGates (peepholeStep join output i) :=
        forall_mem_peepholeStep (fun _ _ _ h ha => hjoin.isPlain h ha) hout hi
      rw [List.foldl_cons, ih hrest _ hstep, prod_peepholeStep hcommute hvalue hout hi, List.map_cons, List.prod_cons,
        mul_assoc]
  have := walk [] (by simp [PlainGates])
  simpa [peephole] using this

theorem Circuit.WellFormed.plainGates {c : Circuit α} (hc : c.WellFormed)
    (hclbits : ∀ i ∈ c.instructions, i.isGate → i.clbits = []) : PlainGates c.instructions :=
  fun i hi hgate => ⟨hgate, hclbits i hi hgate, hc.qubits_nodup i hi⟩

theorem Circuit.WellFormed.peephole {c : Circuit α} (hc : c.WellFormed) (hjoin : KeepsOperands join) :
    (c.withInstructions (CircuitStages.peephole join c.instructions)).WellFormed := by
  refine hc.withInstructions (forall_mem_peephole (fun a b j h ha => ?_) fun i => hc.fits)
  obtain ⟨params, rfl⟩ := hjoin a b j h
  exact ⟨ha.qubits_lt, nofun, ha.qubits_nodup, ha.width_eq_one⟩

/-- The ways of joining gates. -/
inductive Joining where
  | inverses
  | rotations

namespace Joining

def combine : Joining → Instruction Float → Instruction Float → Joined Float
  | inverses => cancelPair
  | rotations => mergePair

/-- The pass that walks once through a circuit. -/
def pass : Joining → Pass
  | inverses => .cancelInverses
  | rotations => .mergeRotations

theorem run_pass (j : Joining) (c : Circuit Float) :
    j.pass.run c = .success (c.withInstructions (peephole j.combine c.instructions)) := by
  cases j <;> rw [pass, Pass.run] <;> rfl

theorem keepsOperands (j : Joining) : KeepsOperands j.combine := by
  cases j with
  | inverses => exact keepsOperands_cancelPair
  | rotations => exact keepsOperands_mergePair

end Joining

namespace Pass

/-- The passes that join neighbouring gates, alone or in loops. -/
inductive IsPeephole : Pass → Prop where
  | cancelInverses : IsPeephole .cancelInverses
  | mergeRotations : IsPeephole .mergeRotations
  | optimizationLoop {body : List Pass} (maxRounds : Nat) (h : ∀ p ∈ body, IsPeephole p) :
      IsPeephole (.optimizationLoop body maxRounds)

variable {φ : Instruction Float → M} {p : Pass} {c : Circuit Float}

theorem IsPeephole.prod_run_of_plainGates (hp : p.IsPeephole) (hφ : GateLaws φ) (hc : PlainGates c.instructions) :
    ∃ d, p.run c = .success d ∧ PlainGates d.instructions ∧
      (d.instructions.map φ).prod = (c.instructions.map φ).prod := by
  induction hp generalizing c with
  | cancelInverses =>
    rw [run]
    exact ⟨_, rfl, keepsOperands_cancelPair.plainGates hc,
      prod_peephole hφ.commute (fun _ _ => hφ.hasValue_cancelPair) keepsOperands_cancelPair hc⟩
  | mergeRotations =>
    rw [run]
    exact ⟨_, rfl, keepsOperands_mergePair.plainGates hc,
      prod_peephole hφ.commute (fun _ _ => hφ.hasValue_mergePair) keepsOperands_mergePair hc⟩
  | @optimizationLoop body maxRounds _ ih =>
    -- What the body keeps from round to round is the product that the loop started with.
    let Same (d : Circuit Float) : Prop :=
      PlainGates d.instructions ∧ (d.instructions.map φ).prod = (c.instructions.map φ).prod
    have one : ∀ q ∈ body, ∀ d, Same d → ∃ e, q.run d = .success e ∧ Same e := by
      intro q hq d hd
      obtain ⟨e, he, hplain, hprod⟩ := ih q hq hd.1
      exact ⟨e, he, hplain, hprod.trans hd.2⟩
    have round (d : Circuit Float) (hd : Same d) : ∃ e, runAll body d = .success e ∧ Same e :=
      exists_runAll_eq_success one hd
    rw [run]
    exact exists_repeatShrinking_eq_success round ⟨hc, rfl⟩

/-- Peephole optimization succeeds on well-formed circuits whose gates touch no classical bits, and the product of the
instructions stays the same in every monoid with the laws of the gates. -/
theorem IsPeephole.prod_run (hp : p.IsPeephole) (hφ : GateLaws φ) (hc : c.WellFormed)
    (hclbits : ∀ i ∈ c.instructions, i.isGate → i.clbits = []) :
    ∃ d, p.run c = .success d ∧ (d.instructions.map φ).prod = (c.instructions.map φ).prod := by
  obtain ⟨d, hd, -, hprod⟩ := hp.prod_run_of_plainGates hφ (hc.plainGates hclbits)
  exact ⟨d, hd, hprod⟩

end Pass

section Bits

/-- The map of bit assignments that flips a bit where all the controls are set. -/
def flipIf (controls : List Nat) (t : Nat) : Function.End (Nat → Bool) :=
  fun bits => if controls.all bits then Function.update bits t (!bits t) else bits

/-- What the gates `x` and `cx` do to bits. All else leaves them alone. -/
def onBits (i : Instruction α) : Function.End (Nat → Bool) :=
  match i.name, i.qubits with
  | "x", [t] => flipIf [] t
  | "cx", [c, t] => flipIf [c] t
  | _, _ => 1

variable {controls others : List Nat} {t u : Nat}

theorem all_update (h : t ∉ controls) (bits : Nat → Bool) (v : Bool) :
    controls.all (Function.update bits t v) = controls.all bits := by
  rw [Bool.eq_iff_iff, List.all_eq_true, List.all_eq_true]
  refine forall₂_congr fun c hc => ?_
  rw [Function.update_of_ne (ne_of_mem_of_not_mem hc h)]

theorem flipIf_mul_self (h : t ∉ controls) : flipIf controls t * flipIf controls t = 1 := by
  refine funext fun bits => ?_
  change flipIf controls t (flipIf controls t bits) = bits
  by_cases hset : controls.all bits
  · simp [flipIf, hset, all_update h]
  · simp [flipIf, hset]

theorem flipIf_mul_comm (h : (controls ++ [t]).Disjoint (others ++ [u])) :
    flipIf controls t * flipIf others u = flipIf others u * flipIf controls t := by
  have htu : t ≠ u := fun heq => h (a := t) (by simp) (by simp [heq])
  have ht : t ∉ others := fun hmem => h (a := t) (by simp) (by simp [hmem])
  have hu : u ∉ controls := fun hmem => h (a := u) (by simp [hmem]) (by simp)
  refine funext fun bits => ?_
  change flipIf controls t (flipIf others u bits) = flipIf others u (flipIf controls t bits)
  by_cases hcontrols : controls.all bits <;> by_cases hothers : others.all bits <;>
    simp [flipIf, hcontrols, hothers, all_update ht, all_update hu, htu, htu.symm, Function.update_comm htu]

theorem onBits_eq (i : Instruction α) :
    onBits i = 1 ∨ ∃ controls t, onBits i = flipIf controls t ∧ i.qubits = controls ++ [t] := by
  rw [onBits]
  split
  next t _ hqubits => exact .inr ⟨[], t, rfl, hqubits⟩
  next c t _ hqubits => exact .inr ⟨[c], t, rfl, hqubits⟩
  next => exact .inl rfl

theorem onBits_eq_one (h : i.name ∉ ["x", "cx"]) : onBits i = 1 := by
  simp only [List.mem_cons, List.not_mem_nil, or_false, not_or] at h
  rw [onBits]
  split
  next hx _ => exact absurd hx h.1
  next hcx _ => exact absurd hcx h.2
  next => rfl

theorem onBits_mul_comm (h : a.qubits.Disjoint b.qubits) : onBits a * onBits b = onBits b * onBits a := by
  rcases onBits_eq a with ha | ⟨controls, t, ha, hqa⟩
  · rw [ha, one_mul, mul_one]
  · rcases onBits_eq b with hb | ⟨others, u, hb, hqb⟩
    · rw [hb, one_mul, mul_one]
    · rw [ha, hb, flipIf_mul_comm (by rwa [hqa, hqb] at h)]

theorem onBits_mul_self (h : i.qubits.Nodup) : onBits i * onBits i = 1 := by
  rcases onBits_eq i with hi | ⟨controls, t, hi, hqubits⟩
  · rw [hi, one_mul]
  · rw [hqubits, List.nodup_append] at h
    rw [hi, flipIf_mul_self fun hmem => h.2.2 t hmem t (List.mem_singleton_self t) rfl]

theorem onBits_congr (hname : a.name = b.name) (hqubits : a.qubits = b.qubits) : onBits a = onBits b := by
  rw [onBits, onBits, hname, hqubits]

theorem onBits_mul_inverse (ha : a.qubits.Nodup) (h : areInverse a b) : onBits a * onBits b = 1 := by
  rcases areInverse_cases h with ⟨hname, hoperands⟩ | hpair
  · by_cases hflips : a.name ∈ ["x", "cx"]
    · have hordered : ∀ name ∈ ["x", "cx"], name ∉ symmetricGates := by decide
      have hqubits : a.qubits = b.qubits := by simpa [sameOperands, hordered _ hflips] using hoperands
      rw [← onBits_congr hname hqubits, onBits_mul_self ha]
    · rw [onBits_eq_one hflips, onBits_eq_one (hname ▸ hflips), one_mul]
  · have hpairs : ∀ s ∈ inversePairs, s.1 ∉ ["x", "cx"] ∧ s.2 ∉ ["x", "cx"] := by decide
    obtain ⟨hx, hy⟩ : a.name ∉ ["x", "cx"] ∧ b.name ∉ ["x", "cx"] := by
      rcases hpair with hmem | hmem
      · exact hpairs _ hmem
      · exact (hpairs _ hmem).symm
    rw [onBits_eq_one hx, onBits_eq_one hy, one_mul]

theorem gateLaws_onBits [Angle α] : GateLaws (onBits : Instruction α → Function.End (Nat → Bool)) where
  commute _ _ _ h := onBits_mul_comm h
  mul_inverse _ _ ha _ h := onBits_mul_inverse ha.qubits_nodup h
  mul_rotation a b p q _ _ hname hrotation _ _ _ := by
    have hrotations : ∀ name ∈ rotationGates, name ∉ ["x", "cx"] := by decide
    have ha : a.name ∉ ["x", "cx"] := hrotations _ hrotation
    have hmerged : onBits (.gate a.name a.qubits [p + q] : Instruction α) = 1 := onBits_eq_one ha
    rw [onBits_eq_one ha, onBits_eq_one (hname ▸ ha), hmerged, one_mul, ite_self]

end Bits

/-- Two controlled flips that cancel across a flip of another qubit and a measurement. -/
def Circuit.cancelling : Circuit Float :=
  (Circuit.empty "cancelling" 4 1).withInstructions [.x 1, .cx 0 1, .x 2, .measure 3 0, .cx 0 1, .x 2]

theorem Circuit.wellFormed_cancelling : cancelling.WellFormed := by
  constructor <;>
    simp [cancelling, withInstructions, Circuit.empty, Instruction.x, Instruction.cx, Instruction.measure,
      Instruction.gate, Instruction.width, singleQubitNames]

theorem Pass.prod_run_cancelling : ∃ d, (optimizationLoop [.mergeRotations, .cancelInverses] 20).run .cancelling =
    .success d ∧ (d.instructions.map onBits).prod = (Circuit.cancelling.instructions.map onBits).prod := by
  have hbody : ∀ p ∈ [Pass.mergeRotations, .cancelInverses], p.IsPeephole := by
    simp [IsPeephole.mergeRotations, IsPeephole.cancelInverses]
  refine (IsPeephole.optimizationLoop 20 hbody).prod_run gateLaws_onBits Circuit.wellFormed_cancelling ?_
  simp [Circuit.cancelling, Circuit.withInstructions, Instruction.x, Instruction.cx, Instruction.measure,
    Instruction.gate, Instruction.isGate, Instruction.isMeasure]

end CircuitStages
