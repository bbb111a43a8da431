import Mathlib.Data.List.Basic
import Mathlib.Data.List.Induction
import Mathlib.Tactic.SplitIfs
import CircuitStages.Proofs.Except
import CircuitStages.Rewrite.Native
import CircuitStages.Rewrite.Peephole
import CircuitStages.Rewrite.Translation

namespace CircuitStages

variable {α : Type}

/-- Whether every gate on two qubits is acceptable, by its name and its operands in order. -/
def AllLinks (ok : String → Nat → Nat → Prop) (is : List (Instruction α)) : Prop :=
  ∀ i ∈ is, ∀ a b, i.link? = some (a, b) → ok i.name a b

/-- Whether every gate has a name from the basis. -/
def InBasis (basis : List String) (is : List (Instruction α)) : Prop := ∀ i ∈ is, i.isGate → basis.contains i.name

variable {ok : String → Nat → Nat → Prop} {is js : List (Instruction α)} {i j : Instruction α} {a b : Nat}

theorem AllLinks.imp {ok' : String → Nat → Nat → Prop} (h : AllLinks ok is)
    (hok : ∀ name a b, ok name a b → ok' name a b) : AllLinks ok' is :=
  fun i hi a b hl => hok i.name a b (h i hi a b hl)

section Translation

variable [Angle α] {basis : List String} {levels : Levels} {bound : Nat}

theorem expandGate_of_keep (h : !i.isGate || basis.contains i.name) :
    expandGate basis levels bound i = .ok [i] := by
  unfold expandGate
  exact if_pos h

/-- One step of an expansion: the instruction is kept, or the rule for it leads on to narrower bounds. -/
theorem expandGate_cases (h : expandGate basis levels bound i = .ok js) :
    (js = [i] ∧ (!i.isGate || basis.contains i.name)) ∨
      ∃ k own r gss, bound = k + 1 ∧ i.isGate ∧ ¬ basis.contains i.name ∧ level? basis levels i.name = some own ∧
        ruleFor? basis levels own i = some r ∧ (r.expand i).mapM (expandGate basis levels k) = .ok gss ∧
        js = gss.flatten := by
  unfold expandGate at h
  split at h
  next hkeep =>
    cases h
    exact .inl ⟨rfl, hkeep⟩
  next hkeep =>
    obtain ⟨hgate, hb⟩ : i.isGate ∧ ¬ basis.contains i.name := by simpa using hkeep
    split at h
    next own k hown =>
      split at h
      next r hr =>
        obtain ⟨gss, hgss, rfl⟩ := map_eq_ok.mp h
        exact .inr ⟨k, own, r, gss, rfl, hgate, hb, hown, hr, hgss, rfl⟩
      next => cases h
    next => cases h

omit [Angle α] in
theorem ruleFor?_eq_some {own : Nat} {r : Rule} (h : ruleFor? basis levels own i = some r) :
    r ∈ rules ∧ r.appliesTo i ∧ ∀ u ∈ r.uses, ∃ l < own, level? basis levels u = some l := by
  have hfound := List.find?_some h
  rw [Bool.and_eq_true, List.all_eq_true] at hfound
  refine ⟨List.mem_of_find?_eq_some h, hfound.1, fun u hu => ?_⟩
  have hlower := hfound.2 u hu
  cases hlevel : level? basis levels u with
  | none => simp [hlevel] at hlower
  | some l => exact ⟨l, by simpa [hlevel] using hlower, rfl⟩

/-- Where an instruction of an expansion comes from. -/
theorem expandGate_eq_ok (h : expandGate basis levels bound i = .ok js) (hj : j ∈ js) :
    (j = i ∧ (!i.isGate || basis.contains i.name)) ∨
      ∃ k, bound = k + 1 ∧ i.isGate ∧ ∃ r ∈ rules, r.appliesTo i ∧
        ∃ g ∈ r.expand i, ∃ gs, expandGate basis levels k g = .ok gs ∧ j ∈ gs := by
  rcases expandGate_cases h with ⟨rfl, hkeep⟩ | ⟨k, own, r, gss, rfl, hi, -, -, hr, hgss, rfl⟩
  · exact .inl ⟨List.mem_singleton.mp hj, hkeep⟩
  · obtain ⟨hmem, happlies, -⟩ := ruleFor?_eq_some hr
    obtain ⟨gs, hgs, hj⟩ := List.mem_flatten.mp hj
    obtain ⟨g, hg, hgate⟩ := exists_of_mem_mapM hgss hgs
    exact .inr ⟨k, rfl, hi, r, hmem, happlies, g, hg, gs, hgate, hj⟩

/-- A rule puts gates on two qubits only on both qubits of a gate on two. -/
theorem wires_of_mem_rules : ∀ r ∈ rules, ∀ s ∈ r.steps, s.wires.length = 2 →
    r.width = 2 ∧ (s.wires = [0, 1] ∨ s.wires = [1, 0]) := by
  decide

theorem link_of_mem_expand {r : Rule} (hr : r ∈ rules) (happlies : r.appliesTo i) (hi : i.isGate) (hj : j ∈ r.expand i)
    (hl : j.link? = some (a, b)) : i.link? = some (a, b) ∨ i.link? = some (b, a) := by
  obtain ⟨s, hs, rfl⟩ := List.mem_map.mp hj
  obtain ⟨hqs, -⟩ := Instruction.link?_eq_some_iff.mp hl
  change s.wires.map (fun w => i.qubits.getD w 0) = [a, b] at hqs
  obtain ⟨hwidth, hwires⟩ := wires_of_mem_rules r hr s hs (by simpa using congrArg List.length hqs)
  simp only [Rule.appliesTo, Bool.and_eq_true, beq_iff_eq] at happlies
  obtain ⟨x, y, hxy⟩ : ∃ x y, i.qubits = [x, y] := List.length_eq_two.mp (happlies.1.2.symm.trans hwidth)
  rcases hwires with hwires | hwires
  · rw [hwires, hxy] at hqs
    cases hqs
    exact .inl (Instruction.link?_eq_some_iff.mpr ⟨hxy, hi⟩)
  · rw [hwires, hxy] at hqs
    cases hqs
    exact .inr (Instruction.link?_eq_some_iff.mpr ⟨hxy, hi⟩)

/-- What the steps of every rule take over from a gate, its whole expansion does. -/
theorem expandGate_induction {P : Instruction α → Prop}
    (hstep : ∀ r ∈ rules, ∀ i : Instruction α, r.appliesTo i → i.isGate → P i → ∀ g ∈ r.expand i, P g)
    (h : expandGate basis levels bound i = .ok js) (hi : P i) (hj : j ∈ js) : P j := by
  induction bound generalizing i js with
  | zero =>
    rcases expandGate_eq_ok h hj with ⟨rfl, -⟩ | ⟨k, hk, -⟩
    · exact hi
    · cases hk
  | succ bound ih =>
    rcases expandGate_eq_ok h hj with ⟨rfl, -⟩ | ⟨k, hk, hgate, r, hr, happlies, g, hg, gs, hgs, hmem⟩
    · exact hi
    · cases hk
      exact ih hgs (hstep r hr i happlies hgate hi g hg) hmem

theorem clbits_of_mem_expand {r : Rule} (hj : j ∈ r.expand i) : j.clbits = [] := by
  obtain ⟨s, -, rfl⟩ := List.mem_map.mp hj
  rfl

theorem link_of_mem_expandGate (h : expandGate basis levels bound i = .ok js) (hj : j ∈ js)
    (hl : j.link? = some (a, b)) : i.link? = some (a, b) ∨ i.link? = some (b, a) := by
  refine expandGate_induction (P := fun g => ∀ a b, g.link? = some (a, b) → i.link? = some (a, b) ∨
    i.link? = some (b, a)) (fun r hr k happlies hk hlinks g hg a b hgl => ?_) h (fun a b hil => .inl hil) hj a b hl
  rcases link_of_mem_expand hr happlies hk hg hgl with hkl | hkl
  · exact hlinks a b hkl
  · exact (hlinks b a hkl).symm

theorem mem_basis_of_mem_expandGate (h : expandGate basis levels bound i = .ok js) (hj : j ∈ js) (hgate : j.isGate) :
    basis.contains j.name := by
  induction bound generalizing i js j with
  | zero =>
    rcases expandGate_eq_ok h hj with ⟨rfl, hkeep⟩ | ⟨k, hk, -⟩
    · simpa [hgate] using hkeep
    · cases hk
  | succ bound ih =>
    rcases expandGate_eq_ok h hj with ⟨rfl, hkeep⟩ | ⟨k, hk, hi, r, hr, happlies, g, hg, gs, hgs, hmem⟩
    · simpa [hgate] using hkeep
    · cases hk
      exact ih hgs hmem hgate

theorem inBasis_translateGates (h : translateGates basis is = .ok js) : InBasis basis js := by
  intro j hj hgate
  obtain ⟨i, hi, gs, hgs, hmem⟩ := exists_of_mem_flatten_mapM h hj
  exact mem_basis_of_mem_expandGate hgs hmem hgate

/-- Translation keeps to the pairs of qubits that were in use, in any order. -/
theorem AllLinks.translateGates {linked : Nat → Nat → Prop} (his : AllLinks (fun _ a b => linked a b) is)
    (hsymm : ∀ a b, linked a b → linked b a) (h : CircuitStages.translateGates basis is = .ok js) :
    AllLinks (fun _ a b => linked a b) js := by
  intro j hj a b hl
  obtain ⟨i, hi, gs, hgs, hmem⟩ := exists_of_mem_flatten_mapM h hj
  rcases link_of_mem_expandGate hgs hmem hl with hil | hil
  · exact his i hi a b hil
  · exact hsymm b a (his i hi b a hil)

/-- Translation leaves gates on two qubits alone that are in the basis already. -/
theorem AllLinks.translateGates_of_basis (his : AllLinks ok is) (hbasis : ∀ name a b, ok name a b → basis.contains name)
    (h : CircuitStages.translateGates basis is = .ok js) : AllLinks ok js := by
  intro j hj a b hl
  obtain ⟨i, hi, gs, hgs, hmem⟩ := exists_of_mem_flatten_mapM h hj
  have hin : basis.contains i.name := by
    rcases link_of_mem_expandGate hgs hmem hl with hil | hil
    · exact hbasis _ _ _ (his i hi _ _ hil)
    · exact hbasis _ _ _ (his i hi _ _ hil)
  rw [expandGate_of_keep (by rw [hin, Bool.or_true])] at hgs
  cases hgs
  cases List.mem_singleton.mp hmem
  exact his j hi a b hl

end Translation

section Direction

variable {supported : String → Nat → Nat → Bool}

/-- Each instruction is kept, or it is a gate that is turned because the device has it the other way round only. -/
theorem directOne_eq_ok_iff : directOne supported i = .ok js ↔
    (js = [i] ∧ ∀ a b, i.link? = some (a, b) → supported i.name a b) ∨
      ∃ a b, i.link? = some (a, b) ∧ ¬ supported i.name a b ∧ supported i.name b a ∧
        ((i.name = "cx" ∧ js = turnedCx a b) ∨ (i.name ∈ symmetricGates ∧ js = [i.onQubits [b, a]])) := by
  constructor
  · intro h
    rw [directOne] at h
    split at h
    next hnone =>
      cases h
      exact .inl ⟨rfl, by simp [hnone]⟩
    next a b hab =>
      split_ifs at h with hkeep hturn hflip
      · cases h
        refine .inl ⟨rfl, fun x y hxy => ?_⟩
        cases hab.symm.trans hxy
        exact hkeep
      · cases h
        simp only [Bool.and_eq_true, beq_iff_eq] at hturn
        exact .inr ⟨a, b, hab, hkeep, hturn.1, .inl ⟨hturn.2, rfl⟩⟩
      · cases h
        simp only [Bool.and_eq_true, List.contains_iff_mem] at hflip
        exact .inr ⟨a, b, hab, hkeep, hflip.1, .inr ⟨hflip.2, rfl⟩⟩
  · rintro (⟨rfl, hkeep⟩ | ⟨a, b, hab, hkeep, hback, ⟨hname, rfl⟩ | ⟨hsymm, rfl⟩⟩)
    · rw [directOne]
      split
      next => rfl
      next a b hab => rw [if_pos (hkeep a b hab)]
    · rw [hname] at hkeep hback
      simp [directOne, hab, hkeep, hback, hname]
    · have hne : i.name ≠ "cx" := ne_of_mem_of_not_mem hsymm (by decide)
      simp [directOne, hab, hkeep, hback, hne, hsymm]

/-- A gate on two qubits after direction repair is in a direction that the device has, and it stands for a gate of the
same name. -/
theorem AllLinks.directGates {known : String → Prop} (his : AllLinks (fun name _ _ => known name) is)
    (h : CircuitStages.directGates supported is = .ok js) :
    AllLinks (fun name a b => supported name a b ∧ known name) js := by
  intro j hj a b hl
  obtain ⟨i, hi, gs, hgs, hmem⟩ := exists_of_mem_flatten_mapM h hj
  rcases directOne_eq_ok_iff.mp hgs with ⟨rfl, hkeep⟩ | ⟨x, y, hxy, -, hback, hturned⟩
  · cases List.mem_singleton.mp hmem
    exact ⟨hkeep a b hl, his j hi a b hl⟩
  · have hknown := his i hi x y hxy
    rcases hturned with ⟨hname, rfl⟩ | ⟨-, rfl⟩
    · rw [hname] at hback hknown
      simp only [turnedCx, List.mem_cons, List.not_mem_nil, or_false] at hmem
      rcases hmem with rfl | rfl | rfl | rfl | rfl
      · cases hl
      · cases hl
      · cases hl
        exact ⟨hback, hknown⟩
      · cases hl
      · cases hl
    · cases List.mem_singleton.mp hmem
      obtain ⟨hqs, -⟩ := Instruction.link?_eq_some_iff.mp hl
      cases hqs
      exact ⟨hback, hknown⟩

/-- Where every gate is in a direction that the device has, nothing is turned. -/
theorem directGates_of_supported (his : AllLinks (fun name a b => supported name a b) is) :
    directGates supported is = .ok is :=
  flatten_mapM_eq_ok_self fun i hi => directOne_eq_ok_iff.mpr (.inl ⟨rfl, his i hi⟩)

end Direction

section Peephole

variable {P : Instruction α → Prop} {join : Instruction α → Instruction α → Joined α}

/-- Where a gate is joined, its predecessor is the last instruction that it shares a qubit with: a gate on as many
qubits, which covers it. The predecessor vanishes with it or is replaced, and nothing else changes. -/
theorem joinBack?_eq_some {output joined : List (Instruction α)} (h : joinBack? join i output = some joined) :
    ∃ front p back, output = front ++ p :: back ∧ (∀ x ∈ front, sharesQubit x i = false) ∧ covers p i ∧ p.isGate ∧
      p.width = i.width ∧ ((join p i = .nothing ∧ joined = front ++ back) ∨
        ∃ q, join p i = .one q ∧ joined = front ++ q :: back) := by
  induction output generalizing joined with
  | nil => cases h
  | cons p output ih =>
    rw [joinBack?] at h
    split at h
    next hpassed =>
      obtain ⟨rest, hrest, rfl⟩ := Option.map_eq_some_iff.mp h
      obtain ⟨front, q, back, rfl, hfront, hcovers, hgate, hwidth, hresult⟩ := ih hrest
      have hp : sharesQubit p i = false := by simpa using hpassed
      refine ⟨p :: front, q, back, rfl, List.forall_mem_cons.mpr ⟨hp, hfront⟩, hcovers, hgate, hwidth, ?_⟩
      rcases hresult with ⟨hnothing, rfl⟩ | ⟨merged, hone, rfl⟩
      · exact .inl ⟨hnothing, rfl⟩
      · exact .inr ⟨merged, hone, rfl⟩
    next =>
      split at h
      next hmatch =>
        simp only [Bool.and_eq_true, beq_iff_eq] at hmatch
        obtain ⟨⟨hcovers, hgate⟩, hwidth⟩ := hmatch
        refine ⟨[], p, output, rfl, by simp, hcovers, hgate, hwidth, ?_⟩
        split at h
        next => cases h
        next hnothing =>
          cases h
          exact .inl ⟨hnothing, rfl⟩
        next merged hone =>
          cases h
          exact .inr ⟨merged, hone, rfl⟩
      next => cases h

/-- One step of the walk puts the instruction behind the output or joins it. -/
theorem peepholeStep_cases (join : Instruction α → Instruction α → Joined α) (output : List (Instruction α))
    (i : Instruction α) : peepholeStep join output i = i :: output ∨
      isJoinable i ∧ joinBack? join i output = some (peepholeStep join output i) := by
  rw [peepholeStep]
  split
  next hjoinable =>
    cases hback : joinBack? join i output with
    | none => exact .inl rfl
    | some joined => exact .inr ⟨hjoinable, rfl⟩
  next => exact .inl rfl

theorem forall_mem_joinBack? (hjoin : ∀ p i q, join p i = .one q → P p → P q) {output joined : List (Instruction α)}
    (h : joinBack? join i output = some joined) (hout : ∀ p ∈ output, P p) : ∀ p ∈ joined, P p := by
  obtain ⟨front, p, back, rfl, -, -, -, -, hresult⟩ := joinBack?_eq_some h
  rw [List.forall_mem_append, List.forall_mem_cons] at hout
  obtain ⟨hfront, hp, hback⟩ := hout
  rcases hresult with ⟨-, rfl⟩ | ⟨q, hone, rfl⟩
  · exact List.forall_mem_append.mpr ⟨hfront, hback⟩
  · exact List.forall_mem_append.mpr ⟨hfront, List.forall_mem_cons.mpr ⟨hjoin p i q hone hp, hback⟩⟩

theorem forall_mem_peepholeStep (hjoin : ∀ p i q, join p i = .one q → P p → P q) {output : List (Instruction α)}
    (hout : ∀ p ∈ output, P p) (hi : P i) : ∀ p ∈ peepholeStep join output i, P p := by
  rcases peepholeStep_cases join output i with hbehind | ⟨-, hback⟩
  · rw [hbehind]
    exact List.forall_mem_cons.mpr ⟨hi, hout⟩
  · exact forall_mem_joinBack? hjoin hback hout

/-- The output of the walk, last instruction first. -/
def walked (join : Instruction α → Instruction α → Joined α) (is : List (Instruction α)) : List (Instruction α) :=
  is.foldl (peepholeStep join) []

theorem walked_append (join : Instruction α → Instruction α → Joined α) (is js : List (Instruction α)) :
    walked join (is ++ js) = js.foldl (peepholeStep join) (walked join is) :=
  List.foldl_append

theorem walked_concat (join : Instruction α → Instruction α → Joined α) (is : List (Instruction α))
    (i : Instruction α) : walked join (is ++ [i]) = peepholeStep join (walked join is) i :=
  walked_append join is [i]

theorem peephole_eq_reverse (join : Instruction α → Instruction α → Joined α) (is : List (Instruction α)) :
    peephole join is = (walked join is).reverse := rfl

/-- What all instructions have in common and joined ones inherit, the result has in common. -/
theorem forall_mem_peephole (hjoin : ∀ p i q, join p i = .one q → P p → P q) (his : ∀ i ∈ is, P i) :
    ∀ j ∈ peephole join is, P j := by
  rw [peephole_eq_reverse]
  simp only [List.mem_reverse]
  induction is using List.reverseRecOn with
  | nil => simp [walked]
  | append_singleton is i ih =>
    rw [List.forall_mem_append, List.forall_mem_singleton] at his
    rw [walked_concat]
    exact forall_mem_peepholeStep hjoin (ih his.1) his.2

section Read

-- What is read off the instructions one by one, where a joined gate gives nothing new.

variable {β : Type*} {f : Instruction α → Option β} (hjoin : ∀ p i q, join p i = .one q → f q = none ∨ f q = f p)
include hjoin

theorem sublist_filterMap_joinBack? {output joined : List (Instruction α)}
    (h : joinBack? join i output = some joined) : (joined.filterMap f).Sublist (output.filterMap f) := by
  obtain ⟨front, p, back, rfl, -, -, -, -, hresult⟩ := joinBack?_eq_some h
  rcases hresult with ⟨-, rfl⟩ | ⟨q, hone, rfl⟩
  · exact (List.Sublist.append_left (List.sublist_cons_self p back) front).filterMap f
  · rw [List.filterMap_append, List.filterMap_append]
    apply List.Sublist.append_left
    rcases hjoin p i q hone with hnone | hsame
    · rw [List.filterMap_cons_none hnone]
      exact (List.sublist_cons_self p back).filterMap f
    · rw [List.filterMap_cons, List.filterMap_cons, hsame]

theorem sublist_filterMap_peepholeStep (output : List (Instruction α)) (i : Instruction α) :
    ((peepholeStep join output i).filterMap f).Sublist ((i :: output).filterMap f) := by
  rcases peepholeStep_cases join output i with hbehind | ⟨-, hback⟩
  · rw [hbehind]
  · apply (sublist_filterMap_joinBack? hjoin hback).trans
    exact (List.sublist_cons_self i output).filterMap f

theorem sublist_filterMap_walked (is : List (Instruction α)) :
    ((walked join is).filterMap f).Sublist (is.reverse.filterMap f) := by
  induction is using List.reverseRecOn with
  | nil => simp [walked]
  | append_singleton is i ih =>
    rw [walked_concat, List.reverse_append, List.filterMap_append]
    apply (sublist_filterMap_peepholeStep hjoin (walked join is) i).trans
    rw [← List.singleton_append, List.filterMap_append]
    exact ih.append_left _

/-- What is read off stays in its order. -/
theorem sublist_filterMap_peephole (is : List (Instruction α)) :
    ((peephole join is).filterMap f).Sublist (is.filterMap f) := by
  have hwalked := (sublist_filterMap_walked hjoin is).reverse
  rw [← List.filterMap_reverse, ← List.filterMap_reverse, List.reverse_reverse] at hwalked
  exact hwalked

end Read

theorem cancelPair_ne_one {p i q : Instruction α} : cancelPair p i ≠ .one q := by
  rw [cancelPair]
  split <;> exact nofun

/-- What is merged are two rotations, and the result is a rotation like the first one. -/
theorem mergePair_eq_one [Angle α] {p i q : Instruction α} (h : mergePair p i = .one q) :
    p.name ∈ rotationGates ∧ p.params.length = 1 ∧ ∃ angle, q = .gate p.name p.qubits [angle] := by
  rw [mergePair] at h
  split at h
  next hmergeable =>
    simp only [Bool.and_eq_true, List.contains_iff_mem] at hmergeable
    split at h
    next a b hp hi =>
      split at h
      · cases h
      · cases h
        exact ⟨hmergeable.1.2, by rw [hp]; rfl, _, rfl⟩
    next => cases h
  next => cases h

theorem AllLinks.cancelInverses (his : AllLinks ok is) : AllLinks ok (CircuitStages.cancelInverses is) :=
  forall_mem_peephole (fun _ _ _ hone => absurd hone cancelPair_ne_one) his

theorem AllLinks.mergeRotations [Angle α] (his : AllLinks ok is) : AllLinks ok (CircuitStages.mergeRotations is) := by
  refine forall_mem_peephole (fun p i q hone hp => ?_) his
  obtain ⟨-, -, angle, rfl⟩ := mergePair_eq_one hone
  exact hp

end Peephole

theorem mem_of_mem_dropLeadingResets {touched : List Nat} (h : j ∈ dropLeadingResets touched is) : j ∈ is := by
  induction is generalizing touched with
  | nil => cases h
  | cons i is ih =>
    simp only [dropLeadingResets] at h
    split at h
    · exact List.mem_cons_of_mem _ (ih h)
    · rcases List.mem_cons.mp h with rfl | h
      · exact List.mem_cons_self
      · exact List.mem_cons_of_mem _ (ih h)

theorem AllLinks.removeLeadingResets (his : AllLinks ok is) : AllLinks ok (CircuitStages.removeLeadingResets is) :=
  fun i hi => his i (mem_of_mem_dropLeadingResets hi)

end CircuitStages
