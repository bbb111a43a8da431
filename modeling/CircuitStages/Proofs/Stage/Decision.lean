import CircuitStages.Proofs.Device.CouplingMap
import CircuitStages.Proofs.Stage.Assembly

namespace CircuitStages

namespace Pipeline

/-- A direction pass stands in the repairs exactly if they are for an asymmetric device. -/
theorem mem_preOptimizationFor {c : Config} {map : Option CouplingMap} {t : Option (Target Float)}
    {m : Option CouplingMap} : .gateDirection t m ∈ preOptimizationFor c map ↔
      (map.any (!·.isSymmetric) || c.target.any fun t => !(t.nonGlobalOperations true).isEmpty) ∧
        t = c.target ∧ m = map := by
  rw [preOptimizationFor]
  split
  next h => simp [preOptimization, h]
  next h => simp [preOptimization, h]

end Pipeline

theorem CouplingMap.not_isSymmetric_iff {m : CouplingMap} :
    (!m.isSymmetric) = true ↔ ∃ e ∈ m.edges, ¬ m.hasEdge e.2 e.1 := by
  simp [isSymmetric]

namespace Registry

variable {kind : StageKind} {method : String} {c : Config} {level : Nat}

theorem denseLayout_eq_ok (h : c.needsMapping) : ∃ ps, StageBuilder.denseLayout c level = .ok ps := by
  rw [StageBuilder.denseLayout]
  cases hlayout : c.initialLayout with
  | some layout => exact ⟨_, rfl⟩
  | none =>
    rw [Config.needsMapping, hlayout, Option.isSome_none, Bool.or_false, Option.isSome_iff_exists] at h
    obtain ⟨map, hmap⟩ := h
    rw [hmap]
    exact ⟨_, rfl⟩

/-- No built-in builder fails, if dense placement is only asked for where there is something to place on. -/
theorem exists_lookup_builtin (h : builtin.contains kind method) (hlayout : kind = .layout → c.needsMapping) :
    ∃ ps, builtin.lookup kind method c level = .ok ps := by
  obtain ⟨build, hbuild⟩ := Option.isSome_iff_exists.mp h
  have hmem := mem_builtinStages_of_builder? hbuild
  rw [lookup, hbuild]
  simp only [builtinStages, List.mem_cons, Prod.mk.injEq, List.not_mem_nil, or_false] at hmem
  rcases hmem with ⟨-, -, rfl⟩ | ⟨hkind, -, rfl⟩ | hmem
  · exact ⟨_, rfl⟩
  · obtain ⟨ps, hps⟩ : ∃ ps, StageBuilder.denseLayout c level = .ok ps := denseLayout_eq_ok (hlayout hkind)
    exact ⟨ps, mapError_eq_ok.mpr hps⟩
  · rcases hmem with ⟨-, -, rfl⟩ | ⟨-, -, rfl⟩ | ⟨-, -, rfl⟩ | ⟨-, -, rfl⟩ | ⟨-, -, rfl⟩ | ⟨-, -, rfl⟩ | ⟨-, -, rfl⟩ |
      ⟨-, -, rfl⟩ | ⟨-, -, rfl⟩
    all_goals exact ⟨_, rfl⟩

theorem contains_usualMethod? (h : kind.usualMethod? = some method) : builtin.contains kind method := by
  cases kind <;> cases h <;> decide +kernel

end Registry

namespace Config

variable {c : Config} {r : Registry} {kind : StageKind} {p : StagedPipeline} {e : AssembleError}

/-- The kinds of the stages that assembly builds, in its order. Routing is among them even where it is left out. -/
def builtKinds (c : Config) : List StageKind :=
  .routing :: ((if c.needsMapping then [.layout] else []) ++ [.translation, .optimization, .scheduling, .init])

/-- What assembly looks up, in its order: each kind with the method in effect. There is none for init without a
choice. -/
def requests (c : Config) : List (StageKind × String) :=
  c.builtKinds.filterMap fun kind => (c.method? kind).map fun method => (kind, method)

/-- What is wrong with a lookup, if anything is. -/
def lookupFault? (c : Config) (r : Registry) (request : StageKind × String) : Option AssembleError :=
  errorOf? (r.lookup request.1 request.2 c presetLevel)

/-- Whether a stage is what the registry has under the method in effect. -/
def Finds (c : Config) (r : Registry) (kind : StageKind) (stage : Option Pipeline) : Prop :=
  ∃ method ps, c.method? kind = some method ∧ r.lookup kind method c presetLevel = .ok ps ∧ stage = some ps

/-- Whether gates may have to be turned: some link lacks its reverse, or some operation of the target is not available
in all orders of operands. -/
def IsAsymmetric (c : Config) : Prop :=
  (∃ m, c.effectiveCouplingMap = some m ∧ ∃ e ∈ m.edges, ¬ m.hasEdge e.2 e.1) ∨
    ∃ t, c.target = some t ∧ t.nonGlobalOperations true ≠ []

/-- The pipeline for a configuration, stage by stage. -/
structure Assembled (c : Config) (r : Registry) (p : StagedPipeline) : Prop where
  init : ∃ rest, p.init = some (.controlFlowValidation c.selections c.basisGates c.target ++ rest) ∧
    match c.initMethod with
    | some method => r.lookup .init method c presetLevel = .ok rest
    | none => rest = if c.needsMapping then Pipeline.reductionFor c else []
  layout : if c.needsMapping then c.Finds r .layout p.layout else p.layout = none
  routing : if c.needsMapping then c.Finds r .routing p.routing else p.routing = none
  translation : c.Finds r .translation p.translation
  preOptimization : ∃ ps, p.preOptimization = some ps ∧
    ((∃ t m, .gateDirection t m ∈ ps) ↔ c.IsAsymmetric) ∧
    ∀ t m, .gateDirection t m ∈ ps → t = c.target ∧ m = c.effectiveCouplingMap
  optimization : c.Finds r .optimization p.optimization
  scheduling : c.Finds r .scheduling p.scheduling

theorem errorOf?_stage? (c : Config) (r : Registry) (kind : StageKind) :
    errorOf? (c.stage? r kind) = (c.method? kind).bind fun method => c.lookupFault? r (kind, method) := by
  rw [stage?]
  cases c.method? kind with
  | none => rfl
  | some method => exact errorOf?_map _ _

theorem findSome?_requests (c : Config) (r : Registry) :
    c.requests.findSome? (c.lookupFault? r) = c.builtKinds.findSome? fun kind => errorOf? (c.stage? r kind) := by
  rw [requests]
  induction c.builtKinds with
  | nil => rfl
  | cons kind kinds ih =>
    rw [List.filterMap_cons, List.findSome?_cons, errorOf?_stage?]
    cases c.method? kind with
    | none => exact ih
    | some method =>
      rw [Option.map_some, Option.bind_some, List.findSome?_cons, ih]

/-- A computation that goes on with a stage fails with the error of the stage, or else with its own. -/
theorem bind_stage?_eq_error_iff {kinds : List StageKind} {rest : Option Pipeline → Except AssembleError StagedPipeline}
    (h : ∀ stage, rest stage = .error e ↔ kinds.findSome? (fun kind => errorOf? (c.stage? r kind)) = some e) :
    (c.stage? r kind >>= rest) = .error e ↔
      (kind :: kinds).findSome? (fun kind => errorOf? (c.stage? r kind)) = some e := by
  rw [List.findSome?_cons]
  cases c.stage? r kind with
  | error d => simp [errorOf?, bind, Except.bind]
  | ok stage => exact h stage

theorem bind_layout_eq_error_iff {kinds : List StageKind} {rest : Option Pipeline → Except AssembleError StagedPipeline}
    (h : ∀ stage, rest stage = .error e ↔ kinds.findSome? (fun kind => errorOf? (c.stage? r kind)) = some e) :
    (if c.needsMapping then c.stage? r .layout >>= rest else .ok none >>= rest) = .error e ↔
      ((if c.needsMapping then [StageKind.layout] else []) ++ kinds).findSome?
        (fun kind => errorOf? (c.stage? r kind)) = some e := by
  split
  · exact bind_stage?_eq_error_iff h
  · exact h none

/-- Assembly of a valid configuration fails with the error of the first lookup that fails. -/
theorem assemble_eq_error_iff (hvalid : c.validate = .ok ()) :
    c.assemble r = .error e ↔ c.requests.findSome? (c.lookupFault? r) = some e := by
  rw [findSome?_requests, builtKinds, assemble, hvalid]
  change (c.stage? r .routing >>= _) = _ ↔ _
  refine bind_stage?_eq_error_iff fun routing => ?_
  refine bind_layout_eq_error_iff fun layout => ?_
  refine bind_stage?_eq_error_iff fun translation => ?_
  refine bind_stage?_eq_error_iff fun optimization => ?_
  refine bind_stage?_eq_error_iff fun scheduling => ?_
  refine bind_stage?_eq_error_iff fun chosen => ?_
  constructor
  · intro h
    cases h
  · intro h
    cases h

theorem exists_assemble_iff (hvalid : c.validate = .ok ()) :
    (∃ p, c.assemble r = .ok p) ↔ c.requests.findSome? (c.lookupFault? r) = none := by
  rw [← errorOf?_eq_none_iff, Option.eq_none_iff_forall_ne_some, Option.eq_none_iff_forall_ne_some]
  refine forall_congr' fun e => not_congr ?_
  rw [← assemble_eq_error_iff hvalid]
  cases c.assemble r <;> simp [errorOf?]

theorem exists_gateDirection_iff (c : Config) :
    (∃ t m, .gateDirection t m ∈ Pipeline.preOptimizationFor c c.effectiveCouplingMap) ↔ c.IsAsymmetric := by
  simp only [Pipeline.mem_preOptimizationFor, exists_and_left, exists_eq, and_true, Bool.or_eq_true,
    Option.any_eq_true, CouplingMap.not_isSymmetric_iff]
  simp [IsAsymmetric]

/-- What comes of assembly where it succeeds. -/
theorem assembled_of_assemble (h : c.assemble r = .ok p) : c.Assembled r p := by
  obtain ⟨-, routing, hrouting, layout, hlayout, translation, htranslation, optimization, hoptimization, scheduling,
    hscheduling, chosen, hchosen, rfl⟩ := assemble_eq_ok_iff.mp h
  refine ⟨⟨_, rfl, ?_⟩, ?_, ?_, stage?_eq_ok htranslation (by decide),
    ⟨_, rfl, c.exists_gateDirection_iff, fun t m hmem => ?_⟩,
    stage?_eq_ok hoptimization (by decide), stage?_eq_ok hscheduling (by decide)⟩
  · rw [stage?, method?, chosenMethod?] at hchosen
    cases hinit : c.initMethod with
    | none =>
      rw [hinit] at hchosen
      cases hchosen
      rfl
    | some method =>
      rw [hinit] at hchosen
      obtain ⟨ps, hps, rfl⟩ := map_eq_ok.mp hchosen
      exact hps
  · split
    next hmap =>
      rw [if_pos hmap] at hlayout
      exact stage?_eq_ok hlayout (by decide)
    next hmap =>
      rw [if_neg hmap] at hlayout
      exact (Except.ok.inj hlayout).symm
  · split
    next hmap => exact stage?_eq_ok hrouting (by decide)
    next hmap => exact rfl
  · exact (Pipeline.mem_preOptimizationFor.mp hmem).2

/-- With the built-in registry assembly succeeds for every valid configuration that names no other methods. -/
theorem exists_assemble_builtin (hvalid : c.validate = .ok ())
    (hmethods : ∀ kind method, c.chosenMethod? kind = some method → Registry.builtin.contains kind method) :
    ∃ p, c.assemble .builtin = .ok p := by
  refine (exists_assemble_iff hvalid).mpr (List.findSome?_eq_none_iff.mpr fun request hrequest => ?_)
  obtain ⟨kind, hkind, heq⟩ := List.mem_filterMap.mp hrequest
  obtain ⟨method, hmethod, rfl⟩ := Option.map_eq_some_iff.mp heq
  refine errorOf?_eq_none_iff.mpr (Registry.exists_lookup_builtin ?_ ?_)
  · rcases Option.or_eq_some_iff.mp hmethod with hchosen | ⟨-, husual⟩
    · exact hmethods kind method hchosen
    · exact Registry.contains_usualMethod? husual
  · rintro rfl
    by_contra hmap
    simp [builtKinds, hmap] at hkind

/-- Assembly returns the error of validation if there is one, else the error of the first lookup that fails; and if
none fails, a pipeline made of what the lookups give. With the built-in registry it succeeds for every valid
configuration that names built-in methods or none. -/
theorem assemble_decides (c : Config) (r : Registry) :
    (∀ e, c.validate = .error e → c.assemble r = .error (.config e)) ∧
    (c.validate = .ok () →
      (∀ e, c.assemble r = .error e ↔ c.requests.findSome? (c.lookupFault? r) = some e) ∧
      (c.requests.findSome? (c.lookupFault? r) = none → ∃ p, c.assemble r = .ok p ∧ c.Assembled r p) ∧
      ((∀ kind method, c.chosenMethod? kind = some method → Registry.builtin.contains kind method) →
        ∃ p, c.assemble .builtin = .ok p)) := by
  refine ⟨fun e he => ?_, fun hvalid => ⟨fun e => assemble_eq_error_iff hvalid, fun hnone => ?_,
    exists_assemble_builtin hvalid⟩⟩
  · rw [assemble, he]
    rfl
  · obtain ⟨p, hp⟩ := (exists_assemble_iff hvalid).mpr hnone
    exact ⟨p, hp, assembled_of_assemble hp⟩

/-- A device whose only link goes one way, with some methods chosen. -/
def oneWay : Config :=
  { couplingMap := some (.ofEdges [(0, 1)]), routingMethod := some "basic", initMethod := some "default" }

theorem assemble_decides_oneWay :
    (∃ p, oneWay.assemble .builtin = .ok p ∧ oneWay.Assembled .builtin p) ∧
    Config.assemble { oneWay with routingMethod := some "fastest" } .builtin =
      .error (.resolution ⟨.routing, "fastest", Registry.builtin.methods .routing⟩) ∧
    Config.assemble { oneWay with layoutMethod := some " " } .builtin =
      .error (.config (.emptyMethodName .layout)) := by
  have hvalid : oneWay.validate = .ok () := rfl
  have hmethods : ∀ kind method, oneWay.chosenMethod? kind = some method → Registry.builtin.contains kind method := by
    intro kind method h
    cases kind <;> cases h <;> decide +kernel
  obtain ⟨-, hassembled, hbuiltin⟩ := (assemble_decides oneWay .builtin).2 hvalid
  refine ⟨hassembled ((exists_assemble_iff hvalid).mp (hbuiltin hmethods)), ?_, (assemble_decides _ _).1 _ rfl⟩
  exact (((assemble_decides _ _).2 rfl).1 _).mpr rfl

end Config

end CircuitStages
