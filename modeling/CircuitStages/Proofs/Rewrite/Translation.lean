import CircuitStages.Proofs.Circuit.Checks
import CircuitStages.Proofs.Pass.Runs
import CircuitStages.Proofs.Rewrite.Levels
import CircuitStages.Proofs.Rewrite.Links

namespace CircuitStages

variable {α : Type} {basis : List String} {bound : Nat} {i g j : Instruction α} {is js : List (Instruction α)}
  {r q : Rule}

/-- Whether a gate is in the basis, or a rule for gates of its form uses only gates that rules derive from it. -/
def Translatable (basis : List String) (i : Instruction α) : Prop :=
  basis.contains i.name ∨ ∃ r ∈ rules, r.appliesTo i ∧ ∀ name ∈ r.uses, Derivable basis name

theorem translatable_iff : Translatable basis i ↔
    basis.contains i.name ∨
      ∃ r ∈ rules, r.appliesTo i ∧ ∀ name ∈ r.uses, isExpressible basis (gateLevels basis) name := by
  simp only [Translatable, isExpressible_gateLevels_iff]

/-- The levels decide what can be translated. -/
instance : Decidable (Translatable basis i) := decidable_of_iff' _ translatable_iff

-- The table: all rules for a gate are about the same form, and they are used in that form.

theorem shape_of_source : ∀ r ∈ rules, ∀ q ∈ rules, r.source = q.source →
    r.width = q.width ∧ r.numParams = q.numParams := by
  decide +kernel

theorem shape_of_step : ∀ r ∈ rules, ∀ s ∈ r.steps, ∀ q ∈ rules, q.source = s.name →
    q.width = s.wires.length ∧ q.numParams = s.angles.length := by
  decide +kernel

theorem operands_of_step : ∀ r ∈ rules, ∀ s ∈ r.steps, s.wires.Nodup ∧ ∀ w ∈ s.wires, w < r.width := by
  decide +kernel

theorem isGate_of_step : ∀ r ∈ rules, ∀ s ∈ r.steps, (Instruction.gate s.name [] ([] : List Unit)).isGate := by
  decide +kernel

theorem not_mem_singleQubitNames_of_isGate (h : i.isGate) : i.name ∉ singleQubitNames := by
  intro hmem
  simp only [singleQubitNames, List.mem_cons, List.not_mem_nil, or_false] at hmem
  simp only [Instruction.isGate, Instruction.isMeasure, Instruction.isReset, Instruction.isDelay] at h
  rcases hmem with hname | hname | hname
  all_goals simp [hname] at h

theorem appliesTo_iff : r.appliesTo i ↔ r.source = i.name ∧ r.width = i.width ∧ r.numParams = i.params.length := by
  simp only [Rule.appliesTo, Bool.and_eq_true, beq_iff_eq, and_assoc]

theorem appliesTo_of_source (hr : r ∈ rules) (hq : q ∈ rules) (happlies : r.appliesTo i)
    (hsource : q.source = i.name) : q.appliesTo i := by
  obtain ⟨hname, hwidth, hparams⟩ := appliesTo_iff.mp happlies
  obtain ⟨hsame, hsame'⟩ := shape_of_source q hq r hr (hsource.trans hname.symm)
  exact appliesTo_iff.mpr ⟨hsource, hsame.trans hwidth, hsame'.trans hparams⟩

/-- A gate outside the basis that can be translated has a level, and a rule that leads to lower ones. -/
theorem exists_ruleFor? (hi : i.isGate → Translatable basis i) (hkeep : ¬ (!i.isGate || basis.contains i.name)) :
    ∃ own r, level? basis (gateLevels basis) i.name = some own ∧ 0 < own ∧
      ruleFor? basis (gateLevels basis) own i = some r := by
  obtain ⟨hgate, hb⟩ : i.isGate ∧ ¬ basis.contains i.name := by simpa using hkeep
  obtain ⟨q, hq, happlies, huses⟩ := (hi hgate).resolve_left hb
  have hderivable : Derivable basis i.name := (appliesTo_iff.mp happlies).1 ▸ .rule hq huses
  obtain ⟨own, hown⟩ := isExpressible_iff.mp (isExpressible_gateLevels_iff.mpr hderivable)
  obtain ⟨hpos, r, hr, hsource, hlower⟩ := exists_rule_of_level hb hown
  have hfound : (ruleFor? basis (gateLevels basis) own i).isSome := by
    rw [ruleFor?, List.find?_isSome]
    refine ⟨r, hr, ?_⟩
    rw [Bool.and_eq_true, List.all_eq_true]
    refine ⟨appliesTo_of_source hq hr happlies hsource, fun u hu => ?_⟩
    obtain ⟨l, hl, hlevel⟩ := hlower u hu
    simp [hlevel, hl]
  obtain ⟨found, hfound⟩ := Option.isSome_iff_exists.mp hfound
  exact ⟨own, found, hown, hpos, hfound⟩

theorem derivable_of_ruleFor? {own : Nat} (h : ruleFor? basis (gateLevels basis) own i = some r) :
    ∀ u ∈ r.uses, Derivable basis u := by
  intro u hu
  obtain ⟨l, -, hlevel⟩ := (ruleFor?_eq_some h).2.2 u hu
  exact isExpressible_gateLevels_iff.mp (isExpressible_iff.mpr ⟨l, hlevel⟩)

section Expand

variable [Angle α]

theorem name_mem_uses_of_mem_expand (hg : g ∈ r.expand i) : g.name ∈ r.uses := by
  obtain ⟨s, hs, rfl⟩ := List.mem_map.mp hg
  exact List.mem_map.mpr ⟨s, hs, rfl⟩

theorem isGate_of_mem_expand (hr : r ∈ rules) (hg : g ∈ r.expand i) : g.isGate := by
  obtain ⟨s, hs, rfl⟩ := List.mem_map.mp hg
  exact isGate_of_step r hr s hs

theorem translatable_of_mem_expand (hr : r ∈ rules) (huses : ∀ name ∈ r.uses, Derivable basis name)
    (hg : g ∈ r.expand i) : Translatable basis g := by
  have hname := huses _ (name_mem_uses_of_mem_expand hg)
  obtain ⟨s, hs, rfl⟩ := List.mem_map.mp hg
  rcases derivable_iff.mp hname with hb | ⟨q, hq, hsource, hlower⟩
  · exact .inl hb
  · obtain ⟨hwidth, hparams⟩ := shape_of_step r hr s hs q hq hsource
    refine .inr ⟨q, hq, appliesTo_iff.mpr ⟨hsource, ?_, ?_⟩, hlower⟩
    · simpa [Instruction.width, Instruction.gate] using hwidth
    · simpa [Instruction.gate] using hparams

theorem fits_of_mem_expand {c : Circuit α} (hr : r ∈ rules) (happlies : r.appliesTo i) (hi : c.Fits i)
    (hg : g ∈ r.expand i) : c.Fits g := by
  have hsingle := not_mem_singleQubitNames_of_isGate (isGate_of_mem_expand hr hg)
  obtain ⟨s, hs, rfl⟩ := List.mem_map.mp hg
  obtain ⟨hnd, hlt⟩ := operands_of_step r hr s hs
  have hwidth : r.width = i.qubits.length := (appliesTo_iff.mp happlies).2.1
  have hget : ∀ w ∈ s.wires, ∃ h : w < i.qubits.length, i.qubits.getD w 0 = i.qubits[w] := by
    intro w hw
    have h : w < i.qubits.length := hwidth ▸ hlt w hw
    exact ⟨h, by simp [h]⟩
  refine ⟨?_, nofun, ?_, fun hname => absurd hname hsingle⟩
  · intro p hp
    obtain ⟨w, hw, rfl⟩ := List.mem_map.mp hp
    obtain ⟨h, hw⟩ := hget w hw
    rw [hw]
    exact hi.qubits_lt _ (List.getElem_mem h)
  · refine hnd.map_on fun v hv w hw heq => ?_
    obtain ⟨hv', hv⟩ := hget v hv
    obtain ⟨hw', hw⟩ := hget w hw
    rw [hv, hw] at heq
    exact (hi.qubits_nodup.getElem_inj_iff).mp heq

theorem expandGate_succ {levels : Levels} {own : Nat} (hkeep : ¬ (!i.isGate || basis.contains i.name))
    (hown : level? basis levels i.name = some own) (hr : ruleFor? basis levels own i = some r) :
    expandGate basis levels (bound + 1) i = List.flatten <$> (r.expand i).mapM (expandGate basis levels bound) := by
  unfold expandGate
  rw [if_neg hkeep, hown]
  simp only [hr]

theorem level_of_mem_expand {own : Nat} (hr : ruleFor? basis (gateLevels basis) own i = some r)
    (hown : own ≤ bound + 1) (hg : g ∈ r.expand i) :
    ∀ k, level? basis (gateLevels basis) g.name = some k → k ≤ bound := by
  intro k hk
  obtain ⟨l, hl, hlevel⟩ := (ruleFor?_eq_some hr).2.2 _ (name_mem_uses_of_mem_expand hg)
  obtain rfl := Option.some.inj (hlevel.symm.trans hk)
  exact Nat.le_of_lt_succ (Nat.lt_of_lt_of_le hl hown)

/-- Expansion succeeds on whatever can be translated, if the bound is no lower than the level. -/
theorem exists_expandGate (hi : i.isGate → Translatable basis i)
    (hbound : ∀ k, level? basis (gateLevels basis) i.name = some k → k ≤ bound) :
    ∃ gs, expandGate basis (gateLevels basis) bound i = .ok gs := by
  -- a rule that is used lowers the level of the gate, so the bound on its steps is met again
  induction bound using Nat.strongRecOn generalizing i with
  | ind bound ih =>
    by_cases hkeep : (!i.isGate || basis.contains i.name) = true
    · exact ⟨[i], expandGate_of_keep hkeep⟩
    · obtain ⟨own, r, hown, hpos, hr⟩ := exists_ruleFor? hi hkeep
      obtain ⟨bound, rfl⟩ := Nat.exists_eq_add_one.mpr (Nat.lt_of_lt_of_le hpos (hbound own hown))
      have hsteps : ∃ gss, (r.expand i).mapM (expandGate basis (gateLevels basis) bound) = .ok gss := by
        refine exists_mapM_eq_ok_iff.mpr fun g hg => ih bound (Nat.lt_succ_self bound) ?_ ?_
        · exact fun _ => translatable_of_mem_expand (ruleFor?_eq_some hr).1 (derivable_of_ruleFor? hr) hg
        · exact level_of_mem_expand hr (hbound own hown) hg
      obtain ⟨gss, hgss⟩ := hsteps
      refine ⟨gss.flatten, ?_⟩
      rw [expandGate_succ hkeep hown hr, hgss]
      rfl

theorem expandGate_eq_error (hgate : i.isGate) (hi : ¬ Translatable basis i) :
    expandGate basis (gateLevels basis) bound i = .error (.notInBasis i.name) := by
  have hb : ¬ basis.contains i.name := fun h => hi (.inl h)
  have hkeep : ¬ (!i.isGate || basis.contains i.name) = true := by simpa [hgate] using hb
  unfold expandGate
  rw [if_neg hkeep]
  split
  next own bound _ =>
    split
    next r hr =>
      obtain ⟨hmem, happlies, -⟩ := ruleFor?_eq_some hr
      exact absurd (.inr ⟨r, hmem, happlies, derivable_of_ruleFor? hr⟩) hi
    next => rfl
  next => rfl

/-- Bounds no lower than the level make no difference: expansion ends by itself. -/
theorem expandGate_congr {bound' : Nat}
    (hbound : ∀ k, level? basis (gateLevels basis) i.name = some k → k ≤ bound)
    (hbound' : ∀ k, level? basis (gateLevels basis) i.name = some k → k ≤ bound') :
    expandGate basis (gateLevels basis) bound i = expandGate basis (gateLevels basis) bound' i := by
  induction bound using Nat.strongRecOn generalizing i bound' with
  | ind bound ih =>
    by_cases hi : i.isGate → Translatable basis i
    · by_cases hkeep : (!i.isGate || basis.contains i.name) = true
      · rw [expandGate_of_keep hkeep, expandGate_of_keep hkeep]
      · obtain ⟨own, r, hown, hpos, hr⟩ := exists_ruleFor? hi hkeep
        obtain ⟨bound, rfl⟩ := Nat.exists_eq_add_one.mpr (Nat.lt_of_lt_of_le hpos (hbound own hown))
        obtain ⟨bound', rfl⟩ := Nat.exists_eq_add_one.mpr (Nat.lt_of_lt_of_le hpos (hbound' own hown))
        rw [expandGate_succ hkeep hown hr, expandGate_succ hkeep hown hr]
        refine congrArg _ (mapM_congr fun g hg => ih bound (Nat.lt_succ_self bound) ?_ ?_)
        · exact level_of_mem_expand hr (hbound own hown) hg
        · exact level_of_mem_expand hr (hbound' own hown) hg
    · obtain ⟨hgate, hi⟩ := Classical.not_imp.mp hi
      rw [expandGate_eq_error hgate hi, expandGate_eq_error hgate hi]

theorem exists_expandGate_iff :
    (∃ gs, expandGate basis (gateLevels basis) ((level? basis (gateLevels basis) i.name).getD 0) i = .ok gs) ↔
      (i.isGate → Translatable basis i) := by
  constructor
  · rintro ⟨gs, hgs⟩ hgate
    by_contra hi
    rw [expandGate_eq_error hgate hi] at hgs
    cases hgs
  · intro hi
    refine exists_expandGate hi fun k hk => ?_
    rw [hk]
    exact Nat.le_refl k

theorem fits_of_mem_expandGate {c : Circuit α} {levels : Levels} (h : expandGate basis levels bound i = .ok js)
    (hi : c.Fits i) (hj : j ∈ js) : c.Fits j :=
  expandGate_induction (fun _ hr _ happlies _ hi _ hg => fits_of_mem_expand hr happlies hi hg) h hi hj

theorem isGate_of_mem_expandGate {levels : Levels} (h : expandGate basis levels bound i = .ok js) (hi : i.isGate)
    (hj : j ∈ js) : j.isGate :=
  expandGate_induction (fun _ hr _ _ _ _ _ hg => isGate_of_mem_expand hr hg) h hi hj

theorem Circuit.WellFormed.translateGates {c : Circuit α} (hc : c.WellFormed)
    (h : CircuitStages.translateGates basis c.instructions = .ok js) : (c.withInstructions js).WellFormed := by
  refine hc.withInstructions fun j hj => ?_
  obtain ⟨i, hi, gs, hgs, hmem⟩ := exists_of_mem_flatten_mapM h hj
  exact fits_of_mem_expandGate hgs (hc.fits hi) hmem

/-- What takes the place of an instruction: a gate outside the basis gives way to gates in the basis, and everything
else stands as it is. -/
def WrittenAs (basis : List String) (i : Instruction α) (gs : List (Instruction α)) : Prop :=
  if !i.isGate || basis.contains i.name then gs = [i] else ∀ g ∈ gs, g.isGate ∧ basis.contains g.name

theorem writtenAs_of_expandGate {levels : Levels} (h : expandGate basis levels bound i = .ok js) :
    WrittenAs basis i js := by
  rw [WrittenAs]
  split
  next hkeep =>
    rw [expandGate_of_keep hkeep] at h
    cases h
    rfl
  next hwritten =>
    have hgate : i.isGate := by
      have hboth : i.isGate ∧ ¬ basis.contains i.name := by simpa using hwritten
      exact hboth.1
    intro g hg
    have hg' := isGate_of_mem_expandGate h hgate hg
    exact ⟨hg', mem_basis_of_mem_expandGate h hg hg'⟩

theorem exists_blocks_of_translateGates (h : translateGates basis is = .ok js) :
    ∃ blocks, List.Forall₂ (WrittenAs basis) is blocks ∧ js = blocks.flatten := by
  obtain ⟨blocks, hblocks, rfl⟩ := map_eq_ok.mp h
  exact ⟨blocks, (mapM_eq_ok_iff.mp hblocks).imp fun _ _ => writtenAs_of_expandGate, rfl⟩

theorem exists_translateGates_iff :
    (∃ js, translateGates basis is = .ok js) ↔ ∀ i ∈ is, i.isGate → Translatable basis i := by
  rw [← forall₂_congr fun i _ => exists_expandGate_iff]
  exact exists_flatten_mapM_eq_ok_iff

/-- A failure names the first gate that cannot be translated. -/
theorem exists_first_of_translateGates_eq_error {e : CircuitError} (h : translateGates basis is = .error e) :
    ∃ before i after, is = before ++ i :: after ∧ (∀ j ∈ before, j.isGate → Translatable basis j) ∧
      i.isGate ∧ ¬ Translatable basis i ∧ e = .notInBasis i.name := by
  obtain ⟨before, i, after, hsplit, hbefore, hi⟩ := exists_first_of_mapM_eq_error (map_eq_error.mp h)
  refine ⟨before, i, after, hsplit, fun j hj => exists_expandGate_iff.mp (hbefore j hj), ?_⟩
  by_cases hok : i.isGate → Translatable basis i
  · obtain ⟨gs, hgs⟩ := exists_expandGate_iff.mpr hok
    rw [hgs] at hi
    cases hi
  · obtain ⟨hgate, hnot⟩ := Classical.not_imp.mp hok
    rw [expandGate_eq_error hgate hnot] at hi
    cases hi
    exact ⟨hgate, hnot, rfl⟩

theorem translateGates_of_inBasis (h : InBasis basis is) : translateGates basis is = .ok is := by
  refine flatten_mapM_eq_ok_self fun i hi => expandGate_of_keep ?_
  cases hgate : i.isGate with
  | false => rfl
  | true => simpa using h i hi hgate

end Expand

/-- Basis translation is complete and lands in the basis. The search for levels stops by itself, and no expansion is
cut short by its bound; the pass succeeds exactly on circuits of gates that can be translated; everything else and the
gates of the basis stay in place, and a second run changes nothing; a failure names the first gate in the way. -/
theorem basisTranslation_complete {basis : List String} {c : Circuit Float} (hc : c.WellFormed) :
    (newlyExpressible basis (gateLevels basis) = [] ∧
      ∀ (i : Instruction Float) (bound : Nat), (level? basis (gateLevels basis) i.name).getD 0 ≤ bound →
        expandGate basis (gateLevels basis) bound i =
          expandGate basis (gateLevels basis) ((level? basis (gateLevels basis) i.name).getD 0) i) ∧
    ((∃ out, (Pass.basisTranslation (some basis)).run c = .success out) ↔
      ∀ i ∈ c.instructions, i.isGate → Translatable basis i) ∧
    (∀ out, (Pass.basisTranslation (some basis)).run c = .success out →
      out.WellFormed ∧ InBasis basis out.instructions ∧
      (∃ blocks, List.Forall₂ (WrittenAs basis) c.instructions blocks ∧ out.instructions = blocks.flatten) ∧
      (Pass.basisTranslation (some basis)).run out = .success out) ∧
    (∀ e, ((Pass.basisTranslation (some basis)).run c).error = some e →
      ∃ before i after, c.instructions = before ++ i :: after ∧
        (∀ j ∈ before, j.isGate → Translatable basis j) ∧ i.isGate ∧ ¬ Translatable basis i ∧
        e = .circuit (.notInBasis i.name)) := by
  have hrun (d : Circuit Float) : (Pass.basisTranslation (some basis)).run d =
      .ofInstructions d (translateGates basis d.instructions) := by
    rw [Pass.run]
  refine ⟨⟨newlyExpressible_gateLevels basis, fun i bound hbound => ?_⟩, ?_, fun out hout => ?_, fun e he => ?_⟩
  · refine expandGate_congr (fun k hk => ?_) (fun k hk => ?_)
    · rw [hk] at hbound
      exact hbound
    · rw [hk]
      exact Nat.le_refl k
  · rw [← exists_translateGates_iff, hrun]
    simp only [Outcome.ofInstructions_eq_success]
    constructor
    · rintro ⟨-, is, his, -⟩
      exact ⟨is, his⟩
    · rintro ⟨is, his⟩
      exact ⟨_, is, his, rfl⟩
  · rw [hrun, Outcome.ofInstructions_eq_success] at hout
    obtain ⟨is, his, rfl⟩ := hout
    refine ⟨hc.translateGates his, inBasis_translateGates his, exists_blocks_of_translateGates his, ?_⟩
    rw [hrun, Outcome.ofInstructions_eq_success]
    exact ⟨is, translateGates_of_inBasis (inBasis_translateGates his), rfl⟩
  · rw [hrun] at he
    cases hres : translateGates basis c.instructions with
    | ok is =>
      rw [hres] at he
      cases he
    | error d =>
      rw [hres] at he
      cases he
      obtain ⟨before, i, after, hsplit, hbefore, hgate, hnot, rfl⟩ := exists_first_of_translateGates_eq_error hres
      exact ⟨before, i, after, hsplit, hbefore, hgate, hnot, rfl⟩

/-- On a device that turns about axes in the equator and has `cz`, through four levels of rules. -/
theorem basisTranslation_complete_ghz : (Circuit.ghz 3 : Circuit Float).WellFormed ∧
    ∃ out, (Pass.basisTranslation (some ["cz", "measure", "prx"])).run (Circuit.ghz 3) = .success out ∧
      InBasis ["cz", "measure", "prx"] out.instructions := by
  have htranslatable : ∀ i ∈ (Circuit.ghz 3 : Circuit Float).instructions, i.isGate →
      Translatable ["cz", "measure", "prx"] i := by
    decide +kernel
  obtain ⟨-, hsucceeds, hlands, -⟩ :=
    @basisTranslation_complete ["cz", "measure", "prx"] _ (Circuit.wellFormed_ghz 3)
  obtain ⟨out, hout⟩ := hsucceeds.mpr htranslatable
  exact ⟨Circuit.wellFormed_ghz 3, out, hout, (hlands out hout).2.1⟩

end CircuitStages
