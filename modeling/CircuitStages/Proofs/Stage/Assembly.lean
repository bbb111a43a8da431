import CircuitStages.Proofs.Pass.Runs
import CircuitStages.Proofs.Except
import CircuitStages.Stage.Assembly

namespace CircuitStages

namespace Registry

variable {r : Registry} {kind : StageKind} {method : String} {build : StageBuilder}

theorem lookup_eq_ok {c : Config} {level : Nat} {ps : Pipeline} (h : r.lookup kind method c level = .ok ps) :
    ∃ build, r.builder? kind method = some build ∧ build c level = .ok ps := by
  rw [lookup] at h
  split at h
  next => cases h
  next build hbuild => exact ⟨build, hbuild, mapError_eq_ok.mp h⟩

theorem lookup_others {k : StageKind} {m : String} {key : StageKind × String} (hkey : key ≠ (k, m)) :
    (r.others k m).lookup key = r.entries.lookup key := by
  rw [others]
  induction r.entries with
  | nil => rfl
  | cons e entries ih =>
    rw [List.filter_cons, List.lookup_cons]
    split
    next => rw [List.lookup_cons, ih]
    next hdrop =>
      have he : e.1 = (k, m) := by simpa using hdrop
      have hne : (key == e.1) = false := by simpa [he] using hkey
      rw [ih, hne]

/-- The builder inserted last takes the place of any other one under its kind and method. -/
theorem builder?_insert (r : Registry) (k : StageKind) (m : String) (b : StageBuilder) (kind : StageKind)
    (method : String) : (r.insert k m b).builder? kind method =
      if (kind, method) = (k, m) then some b else r.builder? kind method := by
  rw [builder?, insert, List.lookup_cons]
  split
  next heq => rw [if_pos (eq_of_beq heq)]
  next hne =>
    have hkey : (kind, method) ≠ (k, m) := by simpa using hne
    rw [if_neg hkey, lookup_others hkey]
    rfl

theorem builder?_foldl_insert {stages : List (StageKind × String × StageBuilder)}
    (h : (stages.foldl (fun r s => r.insert s.1 s.2.1 s.2.2) r).builder? kind method = some build) :
    (kind, method, build) ∈ stages ∨ r.builder? kind method = some build := by
  induction stages generalizing r with
  | nil => exact .inr h
  | cons s stages ih =>
    rcases ih h with hmem | hold
    · exact .inl (List.mem_cons_of_mem _ hmem)
    · rw [builder?_insert] at hold
      split at hold
      next heq =>
        cases heq
        cases hold
        exact .inl List.mem_cons_self
      next => exact .inr hold

theorem mem_builtinStages_of_builder? (h : builtin.builder? kind method = some build) :
    (kind, method, build) ∈ builtinStages := by
  rcases builder?_foldl_insert h with hmem | hnone
  · exact hmem
  · cases hnone

/-- What the built-in registry builds, some built-in stage builds. -/
theorem mem_builtinStages_of_lookup {c : Config} {level : Nat} {ps : Pipeline}
    (h : builtin.lookup kind method c level = .ok ps) :
    ∃ build, (kind, method, build) ∈ builtinStages ∧ build c level = .ok ps := by
  obtain ⟨build, hbuild, hps⟩ := lookup_eq_ok h
  exact ⟨build, mem_builtinStages_of_builder? hbuild, hps⟩

section Builtin

variable {c : Config} {level : Nat} {ps : Pipeline}

theorem init_of_lookup (h : builtin.lookup .init method c level = .ok ps) : ps = .reductionFor c := by
  obtain ⟨build, hmem, hps⟩ := mem_builtinStages_of_lookup h
  obtain ⟨-, rfl⟩ : method = "default" ∧ build = .reduction := by simpa [builtinStages] using hmem
  cases hps
  rfl

theorem layout_of_lookup (h : builtin.lookup .layout method c level = .ok ps) :
    StageBuilder.denseLayout c level = .ok ps ∨ StageBuilder.trivialLayout c level = .ok ps := by
  obtain ⟨build, hmem, hps⟩ := mem_builtinStages_of_lookup h
  simp only [builtinStages, List.mem_cons, Prod.mk.injEq, reduceCtorEq, false_and, true_and, List.not_mem_nil,
    or_false, false_or] at hmem
  rcases hmem with ⟨-, rfl⟩ | ⟨-, rfl⟩
  · exact .inl hps
  · exact .inr hps

theorem routing_of_lookup (h : builtin.lookup .routing method c level = .ok ps) :
    ps = [.lookaheadRouting c.effectiveCouplingMap] ∨ ps = [.basicRouting c.effectiveCouplingMap] ∨
      ps = [.checkRouting c.effectiveCouplingMap] := by
  obtain ⟨build, hmem, hps⟩ := mem_builtinStages_of_lookup h
  simp only [builtinStages, List.mem_cons, Prod.mk.injEq, reduceCtorEq, false_and, true_and, List.not_mem_nil,
    or_false, false_or] at hmem
  rcases hmem with ⟨-, rfl⟩ | ⟨-, rfl⟩ | ⟨-, rfl⟩
  · cases hps
    exact .inl rfl
  · cases hps
    exact .inr (.inl rfl)
  · cases hps
    exact .inr (.inr rfl)

theorem translation_of_lookup (h : builtin.lookup .translation method c level = .ok ps) : ps = [.translator c] := by
  obtain ⟨build, hmem, hps⟩ := mem_builtinStages_of_lookup h
  obtain ⟨-, rfl⟩ : method = "translator" ∧ build = .ofPass .translator := by simpa [builtinStages] using hmem
  cases hps
  rfl

theorem optimization_of_lookup (h : builtin.lookup .optimization method c presetLevel = .ok ps) :
    ps = .optimizationLoop [.mergeRotations, .cancelInverses] 20 ::
      if c.target.isSome || c.basisGates.isSome then [.translator c] else [] := by
  obtain ⟨build, hmem, hps⟩ := mem_builtinStages_of_lookup h
  obtain ⟨-, rfl⟩ : method = "default" ∧ build = .optimization := by simpa [builtinStages] using hmem
  exact (Except.ok.inj hps).symm

theorem scheduling_of_lookup (h : builtin.lookup .scheduling method c level = .ok ps) :
    ps = [] ∨ ∃ policy, ps = [.schedule policy c.target] := by
  obtain ⟨build, hmem, hps⟩ := mem_builtinStages_of_lookup h
  simp only [builtinStages, List.mem_cons, Prod.mk.injEq, reduceCtorEq, false_and, true_and, List.not_mem_nil,
    or_false, false_or] at hmem
  rcases hmem with ⟨-, rfl⟩ | ⟨-, rfl⟩ | ⟨-, rfl⟩
  · cases hps
    exact .inl rfl
  · cases hps
    exact .inr ⟨.asap, rfl⟩
  · cases hps
    exact .inr ⟨.alap, rfl⟩

end Builtin

end Registry

namespace Config

variable {c : Config} {r : Registry} {kind : StageKind} {p : StagedPipeline}

theorem stage?_eq_ok {stage : Option Pipeline} (h : c.stage? r kind = .ok stage) (hkind : kind ≠ .init) :
    ∃ method ps, c.method? kind = some method ∧ r.lookup kind method c presetLevel = .ok ps ∧ stage = some ps := by
  rw [stage?] at h
  split at h
  next hnone =>
    rw [method?, Option.or_eq_none_iff] at hnone
    cases kind <;> first | exact absurd rfl hkind | cases hnone.2
  next method hmethod =>
    obtain ⟨ps, hps, rfl⟩ := map_eq_ok.mp h
    exact ⟨method, ps, hmethod, hps, rfl⟩

/-- Assembly validates the configuration and builds the stages; it succeeds if all of this does. -/
theorem assemble_eq_ok_iff : c.assemble r = .ok p ↔ c.validate = .ok () ∧
    ∃ routing, c.stage? r .routing = .ok routing ∧
    ∃ layout, (if c.needsMapping then c.stage? r .layout else .ok none) = .ok layout ∧
    ∃ translation, c.stage? r .translation = .ok translation ∧
    ∃ optimization, c.stage? r .optimization = .ok optimization ∧
    ∃ scheduling, c.stage? r .scheduling = .ok scheduling ∧
    ∃ chosen, c.stage? r .init = .ok chosen ∧
    { init := some (.controlFlowValidation c.selections c.basisGates c.target ++
        chosen.getD (if c.needsMapping then .reductionFor c else []))
      layout
      routing := if c.needsMapping then routing else none
      translation
      preOptimization := some (.preOptimizationFor c c.effectiveCouplingMap)
      optimization
      scheduling } = p := by
  have hvalid {P : Prop} : (∃ u, c.validate = .ok u ∧ P) ↔ c.validate = .ok () ∧ P :=
    ⟨fun ⟨(), h⟩ => h, fun h => ⟨(), h⟩⟩
  cases hmap : c.needsMapping
  all_goals
    simp only [assemble, hmap, bind_eq_ok, mapError_eq_ok, pure_eq_ok, if_true, Bool.false_eq_true, if_false, hvalid]

end Config

namespace StagedPipeline

variable {p : StagedPipeline} {c out : Circuit Float}

/-- An absent stage is one without passes. -/
theorem apply_eq_foldlM (p : StagedPipeline) (c : Circuit Float) :
    p.apply c = StageSlot.all.foldlM (fun c slot => ((p.stage? slot).getD []).apply c) c := by
  have present (slots : List StageSlot) (c : Circuit Float) :
      (slots.filterMap fun slot => (p.stage? slot).map fun stage => (slot, stage)).foldlM
        (fun c stage => stage.2.apply c) c =
      slots.foldlM (fun c slot => ((p.stage? slot).getD []).apply c) c := by
    induction slots generalizing c with
    | nil => rfl
    | cons slot slots ih =>
      rw [List.foldlM_cons]
      cases hstage : p.stage? slot with
      | none =>
        rw [List.filterMap_cons_none (by rw [hstage]; rfl), ih]
        rfl
      | some stage =>
        rw [List.filterMap_cons_some (by rw [hstage]; rfl), List.foldlM_cons]
        exact congrArg (stage.apply c >>= ·) (funext fun d => ih d)
  exact present StageSlot.all c

/-- A staged pipeline succeeds if its stages succeed in turn. -/
theorem apply_eq_ok_iff : p.apply c = .ok out ↔
    ∃ c₁, (p.init.getD []).run c = .success c₁ ∧
    ∃ c₂, (p.layout.getD []).run c₁ = .success c₂ ∧
    ∃ c₃, (p.routing.getD []).run c₂ = .success c₃ ∧
    ∃ c₄, (p.translation.getD []).run c₃ = .success c₄ ∧
    ∃ c₅, (p.preOptimization.getD []).run c₄ = .success c₅ ∧
    ∃ c₆, (p.optimization.getD []).run c₅ = .success c₆ ∧ (p.scheduling.getD []).run c₆ = .success out := by
  rw [apply_eq_foldlM, StageSlot.all]
  simp only [List.foldlM_cons, List.foldlM_nil, bind_eq_ok, pure_eq_ok, Pipeline.apply_eq_ok, exists_eq_right]
  rfl

end StagedPipeline

end CircuitStages
