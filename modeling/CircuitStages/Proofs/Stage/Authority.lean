import CircuitStages.Proofs.Stage.Decision
import CircuitStages.Proofs.Stage.Sizes

namespace CircuitStages

namespace Pipeline

/-- Whether two pipelines leave the same behind, be it a result or an error, whatever circuit they are given. -/
def RunsAlike (ps qs : Pipeline) : Prop := ∀ c, ps.run c = qs.run c

variable {ps qs : Pipeline}

theorem RunsAlike.apply_eq (h : RunsAlike ps qs) (c : Circuit Float) : ps.apply c = qs.apply c :=
  congrArg Outcome.toExcept (h c)

/-- Pipelines go on running alike if the same passes run before them. -/
theorem RunsAlike.append (h : RunsAlike ps qs) (before : Pipeline) : RunsAlike (before ++ ps) (before ++ qs) := by
  intro c
  induction before generalizing c with
  | nil => exact h c
  | cons p before ih =>
    simp only [run, List.cons_append, Pass.runAll] at ih ⊢
    simp only [ih]

/-- What is native to a device is for its target to say, so the basis makes no difference to the reduction. -/
theorem runsAlike_reduction (t : Target Float) (basis basis' : Option BasisGates) (settings : SynthesisSettings) :
    RunsAlike (reduction (some t) basis settings) (reduction (some t) basis' settings) := by
  intro c
  simp only [run, reduction, Pass.runAll, Pass.run]
  rfl

end Pipeline

theorem StagedPipeline.apply_congr {p q : StagedPipeline}
    (h : ∀ slot, ((p.stage? slot).getD []).RunsAlike ((q.stage? slot).getD [])) (c : Circuit Float) :
    p.apply c = q.apply c := by
  rw [apply_eq_foldlM, apply_eq_foldlM]
  exact congrArg (StageSlot.all.foldlM · c) (funext fun d => funext fun slot => (h slot).apply_eq d)

/-- Whether two configurations are the same but for the coupling map and the basis gates. -/
def Config.SameApartFromAdvice (c d : Config) : Prop :=
  d = { c with couplingMap := d.couplingMap, basisGates := d.basisGates }

section Builders

variable {c d : Config} {t : Target Float}

/-- The reduction aside, the built-in builders make the same stage for the same target. -/
theorem StageBuilder.eq_of_target (h : c.SameApartFromAdvice d) (htarget : c.target = some t) {kind : StageKind}
    {method : String} {build : StageBuilder} (hmem : (kind, method, build) ∈ builtinStages) (hkind : kind ≠ .init)
    (level : Nat) : build c level = build d level := by
  rw [h]
  obtain ⟨⟩ := c
  cases htarget
  simp only [builtinStages, List.mem_cons, Prod.mk.injEq, List.not_mem_nil, or_false] at hmem
  rcases hmem with ⟨rfl, -, -⟩ | hmem
  · exact absurd rfl hkind
  · rcases hmem with ⟨-, -, rfl⟩ | ⟨-, -, rfl⟩ | ⟨-, -, rfl⟩ | ⟨-, -, rfl⟩ | ⟨-, -, rfl⟩ | ⟨-, -, rfl⟩ | ⟨-, -, rfl⟩ |
      ⟨-, -, rfl⟩ | ⟨-, -, rfl⟩ | ⟨-, -, rfl⟩
    all_goals rfl

theorem Registry.lookup_eq_of_target (h : c.SameApartFromAdvice d) (htarget : c.target = some t) {kind : StageKind}
    (hkind : kind ≠ .init) (method : String) (level : Nat) :
    builtin.lookup kind method c level = builtin.lookup kind method d level := by
  rw [lookup, lookup]
  cases hbuild : builtin.builder? kind method with
  | none => rfl
  | some build =>
    dsimp only
    rw [StageBuilder.eq_of_target h htarget (mem_builtinStages_of_builder? hbuild) hkind]

end Builders

namespace Config

variable {c d : Config} {t : Target Float}

theorem SameApartFromAdvice.method?_eq (h : c.SameApartFromAdvice d) : d.method? = c.method? := by
  rw [h]
  rfl

theorem SameApartFromAdvice.chosenMethod?_eq (h : c.SameApartFromAdvice d) : d.chosenMethod? = c.chosenMethod? := by
  rw [h]
  rfl

theorem SameApartFromAdvice.effectiveCouplingMap_eq (h : c.SameApartFromAdvice d) (htarget : c.target = some t) :
    d.effectiveCouplingMap = c.effectiveCouplingMap := by
  rw [h, effectiveCouplingMap, effectiveCouplingMap]
  dsimp only
  rw [htarget]

theorem SameApartFromAdvice.needsMapping_eq (h : c.SameApartFromAdvice d) (htarget : c.target = some t) :
    d.needsMapping = c.needsMapping := by
  rw [needsMapping, needsMapping, h.effectiveCouplingMap_eq htarget, h]

theorem stage?_eq_of_target (h : c.SameApartFromAdvice d) (htarget : c.target = some t) {kind : StageKind}
    (hkind : kind ≠ .init) : d.stage? .builtin kind = c.stage? .builtin kind := by
  rw [stage?, stage?, h.method?_eq]
  cases c.method? kind with
  | none => rfl
  | some method => exact congrArg (some <$> ·) (Registry.lookup_eq_of_target h htarget hkind method presetLevel).symm

/-- The stage that a chosen init method brings in is the reduction, with every configuration. -/
theorem init_stage?_eq_ok {stage : Option Pipeline} (hstage : c.stage? .builtin .init = .ok stage) :
    stage = c.initMethod.map fun _ => .reductionFor c := by
  rw [stage?, method?, chosenMethod?, StageKind.usualMethod?, Option.or_none] at hstage
  cases hinit : c.initMethod with
  | none =>
    rw [hinit] at hstage
    cases hstage
    rfl
  | some method =>
    rw [hinit] at hstage
    obtain ⟨ps, hps, rfl⟩ := map_eq_ok.mp hstage
    exact congrArg some (Registry.init_of_lookup hps)

theorem SameApartFromAdvice.runsAlike_reductionFor (h : c.SameApartFromAdvice d) (htarget : c.target = some t) :
    (Pipeline.reductionFor c).RunsAlike (.reductionFor d) := by
  rw [h, Pipeline.reductionFor, Pipeline.reductionFor]
  dsimp only
  rw [htarget]
  exact Pipeline.runsAlike_reduction t c.basisGates d.basisGates c.synthesisSettings

/-- The passes of the init stage that assembly makes of the built-in stages. -/
def initPasses (c : Config) : Pipeline :=
  .controlFlowValidation c.selections c.basisGates c.target ++
    (c.initMethod.map fun _ => Pipeline.reductionFor c).getD (if c.needsMapping then .reductionFor c else [])

/-- The init stages run alike: the control-flow check asks the target, and so does the reduction. -/
theorem SameApartFromAdvice.runsAlike_initPasses (h : c.SameApartFromAdvice d) (htarget : c.target = some t) :
    c.initPasses.RunsAlike d.initPasses := by
  have hcheck : Pipeline.controlFlowValidation d.selections d.basisGates d.target =
      .controlFlowValidation c.selections c.basisGates c.target := by
    rw [h]
    dsimp only
    rw [htarget]
    rfl
  have hinit : d.initMethod = c.initMethod := congrFun h.chosenMethod?_eq .init
  have hreduction := h.runsAlike_reductionFor htarget
  rw [initPasses, initPasses, hcheck, hinit, h.needsMapping_eq htarget]
  refine Pipeline.RunsAlike.append ?_ _
  cases c.initMethod with
  | some method => exact hreduction
  | none =>
    cases c.needsMapping with
    | true => exact hreduction
    | false => exact fun circuit => rfl

/-- Where there is a target, neither the coupling map nor the basis gates make a difference: with the built-in registry
two valid configurations that differ in nothing else assemble to pipelines with the same stages present, which give
the same circuit or the same error for every circuit. -/
theorem apply_eq_of_target (h : c.SameApartFromAdvice d) (htarget : c.target.isSome) (hc : c.validate = .ok ())
    (hd : d.validate = .ok ())
    (hmethods : ∀ kind method, c.chosenMethod? kind = some method → Registry.builtin.contains kind method) :
    ∃ p q, c.assemble .builtin = .ok p ∧ d.assemble .builtin = .ok q ∧
      (∀ slot, (p.stage? slot).isSome = (q.stage? slot).isSome) ∧ ∀ circuit, p.apply circuit = q.apply circuit := by
  obtain ⟨t, ht⟩ := Option.isSome_iff_exists.mp htarget
  obtain ⟨p, hp⟩ := exists_assemble_builtin hc hmethods
  have hmethods' : ∀ kind method, d.chosenMethod? kind = some method → Registry.builtin.contains kind method :=
    fun kind method hmethod => hmethods kind method (h.chosenMethod?_eq ▸ hmethod)
  obtain ⟨q, hq⟩ := exists_assemble_builtin hd hmethods'
  refine ⟨p, q, hp, hq, ?_⟩
  obtain ⟨-, routing, hrouting, layout, hlayout, translation, htranslation, optimization, hoptimization, scheduling,
    hscheduling, chosen, hchosen, rfl⟩ := assemble_eq_ok_iff.mp hp
  obtain ⟨-, routing', hrouting', layout', hlayout', translation', htranslation', optimization', hoptimization',
    scheduling', hscheduling', chosen', hchosen', rfl⟩ := assemble_eq_ok_iff.mp hq
  have hrepairs : Pipeline.preOptimizationFor d d.effectiveCouplingMap =
      Pipeline.preOptimizationFor c c.effectiveCouplingMap := by
    rw [h.effectiveCouplingMap_eq ht, h]
    rfl
  -- Every stage but init is the same on both sides.
  rw [stage?_eq_of_target h ht (by decide)] at hrouting' hlayout' htranslation' hoptimization' hscheduling'
  rw [h.needsMapping_eq ht] at hlayout'
  cases hrouting.symm.trans hrouting'
  cases hlayout.symm.trans hlayout'
  cases htranslation.symm.trans htranslation'
  cases hoptimization.symm.trans hoptimization'
  cases hscheduling.symm.trans hscheduling'
  rw [init_stage?_eq_ok hchosen, init_stage?_eq_ok hchosen', h.needsMapping_eq ht, hrepairs]
  constructor
  · intro slot
    cases slot <;> rfl
  · refine StagedPipeline.apply_congr fun slot => ?_
    cases slot with
    | init =>
      have halike := h.runsAlike_initPasses ht
      rw [initPasses, initPasses, h.needsMapping_eq ht] at halike
      exact halike
    | _ => exact fun circuit => rfl

/-- The fan with advice that contradicts its target: other links, and other gates. -/
def advisedFan : Config := { fan with couplingMap := some (.ring 4), basisGates := some .iqm }

theorem apply_eq_of_target_fan : fan.SameApartFromAdvice advisedFan ∧ fan.couplingMap ≠ advisedFan.couplingMap ∧
    fan.validate = .ok () ∧ advisedFan.validate = .ok () ∧
    ∃ p q, fan.assemble .builtin = .ok p ∧ advisedFan.assemble .builtin = .ok q ∧
      (∀ slot, (p.stage? slot).isSome = (q.stage? slot).isSome) ∧ ∀ circuit, p.apply circuit = q.apply circuit := by
  have hmethods : ∀ kind method, fan.chosenMethod? kind = some method → Registry.builtin.contains kind method := by
    intro kind method h
    cases kind <;> cases h
    decide +kernel
  exact ⟨rfl, nofun, rfl, rfl, apply_eq_of_target rfl rfl rfl rfl hmethods⟩

end Config

end CircuitStages
