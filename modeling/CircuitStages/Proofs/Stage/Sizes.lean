import CircuitStages.Proofs.Device.Target
import CircuitStages.Proofs.Pass.WellFormed
import CircuitStages.Proofs.Stage.Compliance

namespace CircuitStages

/-- Whether a pass leaves the number of qubits alone. -/
def Pass.KeepsSize (p : Pass) : Prop := ∀ c, (p.run c).circuit.numQubits = c.numQubits

namespace Pass

variable {p : Pass} {ps : List Pass} {d e : Circuit Float}

theorem numQubits_of_runAll (h : ∀ p ∈ ps, p.KeepsSize) (hrun : runAll ps d = .success e) :
    e.numQubits = d.numQubits := by
  have hkept : (runAll ps d).circuit.numQubits = d.numQubits :=
    invariant_runAll (P := fun c => c.numQubits = d.numQubits) (fun p hp c hc => (h p hp c).trans hc) rfl
  rwa [hrun] at hkept

/-- The passes that put a circuit on a device. -/
def isMapping : Pass → Bool
  | setLayout _ _ | trivialLayout _ | denseLayout _ | basicRouting _ | lookaheadRouting _ => true
  | _ => false

theorem keepsSize (hp : p.isMapping = false)
    (hbody : ∀ body rounds, p = optimizationLoop body rounds → ∀ q ∈ body, q.KeepsSize) : p.KeepsSize := by
  intro c
  have ofInstructions (r : Except CircuitError (List (Instruction Float))) :
      (Outcome.ofInstructions c r).circuit.numQubits = c.numQubits := by
    cases r <;> rfl
  cases p with
  | setLayout | trivialLayout | denseLayout | basicRouting | lookaheadRouting => cases hp
  | cancelInverses | mergeRotations | removeResets | schedule | marker => rw [run]; rfl
  | optimizationLoop body rounds =>
    rw [run]
    refine invariant_repeatShrinking (P := fun d => d.numQubits = c.numQubits) (fun d hd => ?_) rfl
    exact invariant_runAll (P := fun d => d.numQubits = c.numQubits)
      (fun q hq d hd => (hbody body rounds rfl q hq d).trans hd) hd
  | controlFlowCheck check =>
    rw [run]
    split <;> rfl
  | checkRouting map =>
    rw [run, Circuit.checkRouted]
    split <;> rfl
  | basisTranslation basis =>
    cases basis with
    | none => rw [run]; rfl
    | some names => rw [run]; exact ofInstructions _
  | gateDirection | reduceWide => rw [run]; exact ofInstructions _

def isLoop : Pass → Bool
  | optimizationLoop _ _ => true
  | _ => false

theorem keepsSize_plain (hp : p.isMapping = false) (hloop : p.isLoop = false) : p.KeepsSize := by
  refine keepsSize hp fun body rounds heq => ?_
  subst heq
  cases hloop

theorem keepsSize_translator (c : Config) : (translator c).KeepsSize := by
  rw [translator]
  split <;> exact keepsSize_plain rfl rfl

theorem keepsSize_of_mem_preOptimizationFor {c : Config} {map : Option CouplingMap}
    (hp : p ∈ Pipeline.preOptimizationFor c map) : p.KeepsSize := by
  simp only [Pipeline.preOptimizationFor, Pipeline.preOptimization] at hp
  split at hp
  · simp only [if_true, List.mem_append, List.mem_singleton] at hp
    rcases hp with rfl | rfl
    · exact keepsSize_plain rfl rfl
    · exact keepsSize_plain rfl rfl
  · simp only [if_true, Bool.false_eq_true, if_false, List.nil_append, List.mem_singleton] at hp
    subst hp
    exact keepsSize_plain rfl rfl

theorem keepsSize_optimizationLoop {rounds : Nat} :
    (optimizationLoop [.mergeRotations, .cancelInverses] rounds).KeepsSize := by
  refine keepsSize rfl fun body rounds heq q hq => ?_
  cases heq
  simp only [List.mem_cons, List.not_mem_nil, or_false] at hq
  rcases hq with rfl | rfl
  · exact keepsSize_plain rfl rfl
  · exact keepsSize_plain rfl rfl

/-- A router widens the circuit to the qubits of the coupling map, if it has one. -/
theorem numQubits_of_routeOn
    {router : CouplingMap → Nat → List (Instruction Float) → Except CircuitError (RouteState Float)}
    {map : Option CouplingMap} (h : routeOn router map d = .success e) :
    e.numQubits = map.elim d.numQubits fun m => max d.numQubits m.numQubits := by
  cases map with
  | none =>
    cases h
    rfl
  | some m =>
    rw [routeOn, Outcome.ofRoute_eq_success] at h
    obtain ⟨s, -, rfl⟩ := h
    rfl

end Pass

namespace Config

variable {c : Config} {m : CouplingMap} {n : Nat}

/-- The size of a device of `n` qubits together with all qubits that its links mention. -/
def reach (c : Config) (n : Nat) : Nat := c.effectiveCouplingMap.elim n (·.numQubits)

theorem le_reach (hsize : c.deviceSize? = some n) : n ≤ c.reach n := by
  rw [reach]
  cases hmap : c.effectiveCouplingMap with
  | none => exact Nat.le_refl n
  | some m =>
    cases htarget : c.target with
    | none =>
      simp only [effectiveCouplingMap, htarget] at hmap
      simp only [deviceSize?, htarget, hmap, Option.map_some, Option.some.injEq] at hsize
      exact hsize.ge
    | some t =>
      simp only [effectiveCouplingMap, htarget] at hmap
      simp only [deviceSize?, htarget, Option.some.injEq] at hsize
      exact hsize ▸ Target.le_numQubits_of_couplingMap? hmap

/-- A device whose target has been read, or that has none, ends where its links do. -/
theorem reach_eq (hsize : c.deviceSize? = some n)
    (hload : ∀ t, c.target = some t → Target.ofParts t.numQubits t.operations = .ok t) : c.reach n = n := by
  rw [reach]
  cases hmap : c.effectiveCouplingMap with
  | none => rfl
  | some m =>
    cases htarget : c.target with
    | none =>
      simp only [effectiveCouplingMap, htarget] at hmap
      simp only [deviceSize?, htarget, hmap, Option.map_some, Option.some.injEq] at hsize
      exact hsize
    | some t =>
      simp only [effectiveCouplingMap, htarget] at hmap
      simp only [deviceSize?, htarget, Option.some.injEq] at hsize
      exact ((Target.isClosed_of_ofParts (hload t htarget)).numQubits_of_couplingMap? hmap).trans hsize

/-- The init stage of any configuration only checks and reduces. -/
theorem getD_init_of_stage? {chosen : Option Pipeline} (h : c.stage? .builtin .init = .ok chosen) (ps : Pipeline) :
    chosen.getD ps = .reductionFor c ∨ chosen.getD ps = ps := by
  cases hchosen : chosen with
  | none => exact .inr rfl
  | some qs =>
    refine .inl ?_
    have hinit := getD_init_stage h
    rwa [hchosen] at hinit

end Config

variable {c : Config} {d e : Circuit Float} {ps : Pipeline} {method : String} {n : Nat}

theorem numQubits_init_stage {chosen : Option Pipeline} (hchosen : c.stage? .builtin .init = .ok chosen)
    (hrun : (Pipeline.controlFlowValidation c.selections c.basisGates c.target ++
      chosen.getD (if c.needsMapping then .reductionFor c else [])).run d = .success e) :
    e.numQubits = d.numQubits := by
  refine Pass.numQubits_of_runAll (fun p hp => ?_) hrun
  rcases List.mem_append.mp hp with hp | hp
  · rw [List.mem_singleton.mp hp]
    exact Pass.keepsSize_plain rfl rfl
  · have hreduce : p ∈ Pipeline.reductionFor c := by
      rcases Config.getD_init_of_stage? hchosen (if c.needsMapping then .reductionFor c else []) with heq | heq
      · rwa [heq] at hp
      · rw [heq] at hp
        split at hp
        · exact hp
        · cases hp
    rw [List.mem_singleton.mp hreduce]
    exact Pass.keepsSize_plain rfl rfl

/-- The passes that a layout stage can be made of. -/
theorem layout_stage_cases (hsize : c.deviceSize? = some n)
    (h : Registry.builtin.lookup .layout method c presetLevel = .ok ps) :
    (∃ l, c.initialLayout = some l ∧ ps = [.setLayout l (some n)]) ∨
      (∃ m : CouplingMap, m.numQubits = c.reach n ∧ ps = [.denseLayout m]) ∨ ps = [.trivialLayout (some n)] := by
  rcases Registry.layout_of_lookup h with hps | hps
  · cases hl : c.initialLayout with
    | some l =>
      simp only [StageBuilder.denseLayout, hl, hsize] at hps
      cases hps
      exact .inl ⟨l, rfl, rfl⟩
    | none =>
      refine .inr (.inl ?_)
      simp only [StageBuilder.denseLayout, hl] at hps
      cases hmap : c.effectiveCouplingMap with
      | some m =>
        simp only [hmap, Option.some_or] at hps
        cases hps
        exact ⟨m, by rw [Config.reach, hmap]; rfl, rfl⟩
      | none =>
        cases htarget : c.target with
        | none => simp [hmap, htarget] at hps
        | some t =>
          simp only [hmap, htarget, Option.none_or, Option.map_some] at hps
          cases hps
          simp only [Config.deviceSize?, htarget, Option.some.injEq] at hsize
          exact ⟨_, by rw [Config.reach, hmap]; exact hsize, rfl⟩
  · cases hl : c.initialLayout with
    | some l =>
      simp only [StageBuilder.trivialLayout, StageBuilder.ofPass, hl, hsize] at hps
      cases hps
      exact .inl ⟨l, rfl, rfl⟩
    | none =>
      simp only [StageBuilder.trivialLayout, StageBuilder.ofPass, hl, hsize] at hps
      cases hps
      exact .inr (.inr rfl)

/-- Placement gives the circuit the size of the device, counted with or without the qubits beyond it. -/
theorem numQubits_layout_stage (hvalid : c.validate = .ok ()) (hsize : c.deviceSize? = some n)
    (h : Registry.builtin.lookup .layout method c presetLevel = .ok ps) (hrun : ps.run d = .success e) :
    d.numQubits ≤ c.reach n ∧ (e.numQubits = n ∨ e.numQubits = c.reach n) := by
  have hreach := Config.le_reach hsize
  have placed {l : Layout} {size : Nat} (hplace : d.place l size = .ok e) (hl : ∀ x ∈ l.pairs, x.2 < size) :
      d.numQubits ≤ size ∧ e.numQubits = size :=
    ⟨(Circuit.place_eq_ok_iff.mp hplace).1, Circuit.numQubits_of_place hplace hl⟩
  rcases layout_stage_cases hsize h with ⟨l, hl, rfl⟩ | ⟨m, hm, rfl⟩ | rfl
  · have hpass : (Pass.setLayout l (some n)).run d = .success e := Pass.runAll_singleton_eq_success.mp hrun
    rw [Pass.run, Outcome.ofCircuit_eq_success] at hpass
    obtain ⟨hfit, heq⟩ := placed hpass (Config.lt_of_mem_initialLayout hvalid hsize hl)
    exact ⟨hfit.trans hreach, .inl heq⟩
  · have hpass : (Pass.denseLayout m).run d = .success e := Pass.runAll_singleton_eq_success.mp hrun
    rw [Pass.run, Outcome.ofCircuit_eq_success, Circuit.placeDensely] at hpass
    obtain ⟨hfit, heq⟩ := placed hpass fun x hx => Circuit.lt_of_mem_region hx
    exact ⟨hm ▸ hfit, .inr (heq.trans hm)⟩
  · have hpass : (Pass.trivialLayout (some n)).run d = .success e := Pass.runAll_singleton_eq_success.mp hrun
    rw [Pass.run, Outcome.ofCircuit_eq_success, Circuit.placeTrivially] at hpass
    have hwidth : d.numQubits ≤ n := (Circuit.place_eq_ok_iff.mp hpass).1
    obtain ⟨hfit, heq⟩ := placed hpass fun x hx => (Layout.lt_of_mem_trivial hx).2.trans_le hwidth
    exact ⟨hfit.trans hreach, .inl heq⟩

theorem numQubits_routing_stage (h : Registry.builtin.lookup .routing method c presetLevel = .ok ps)
    (hrun : ps.run d = .success e) (hd : d.numQubits ≤ c.reach n) :
    d.numQubits ≤ e.numQubits ∧ e.numQubits ≤ c.reach n := by
  have routed (hnum : e.numQubits = c.effectiveCouplingMap.elim d.numQubits fun m => max d.numQubits m.numQubits) :
      d.numQubits ≤ e.numQubits ∧ e.numQubits ≤ c.reach n := by
    rw [hnum]
    rw [Config.reach] at hd ⊢
    cases hmap : c.effectiveCouplingMap with
    | none =>
      rw [hmap] at hd
      exact ⟨Nat.le_refl _, hd⟩
    | some m =>
      rw [hmap] at hd
      exact ⟨Nat.le_max_left _ _, Nat.max_le.mpr ⟨hd, Nat.le_refl _⟩⟩
  rcases Registry.routing_of_lookup h with rfl | rfl | rfl
  · have hpass : (Pass.lookaheadRouting c.effectiveCouplingMap).run d = .success e :=
      Pass.runAll_singleton_eq_success.mp hrun
    rw [Pass.run] at hpass
    exact routed (Pass.numQubits_of_routeOn hpass)
  · have hpass : (Pass.basicRouting c.effectiveCouplingMap).run d = .success e :=
      Pass.runAll_singleton_eq_success.mp hrun
    rw [Pass.run] at hpass
    exact routed (Pass.numQubits_of_routeOn hpass)
  · have hkeeps : (Pass.checkRouting c.effectiveCouplingMap).KeepsSize := Pass.keepsSize_plain rfl rfl
    have hsame : e.numQubits = d.numQubits := Pass.numQubits_of_runAll (by simpa using hkeeps) hrun
    rw [hsame]
    exact ⟨Nat.le_refl _, hd⟩

/-- If a circuit is mapped to a device of known size, it is no wider than the device and becomes as wide; otherwise its
size does not matter. All of the device counts, with the qubits that only links of a target mention; there are none on
targets that have been read. -/
theorem numQubits_of_apply {p : StagedPipeline} {out : Circuit Float} (hsize : c.deviceSize? = some n)
    (hp : c.assemble .builtin = .ok p) (h : p.apply d = .ok out) :
    (c.needsMapping = true → d.numQubits ≤ c.reach n ∧ n ≤ out.numQubits ∧ out.numQubits ≤ c.reach n) ∧
    (c.needsMapping = false → out.numQubits = d.numQubits) ∧
    ((∀ t, c.target = some t → Target.ofParts t.numQubits t.operations = .ok t) → c.reach n = n) := by
  obtain ⟨hvalid, _, hrouting, layout, hlayout, _, htranslation, _, hoptimization, _, hscheduling, chosen, hchosen,
    rfl⟩ := Config.assemble_eq_ok_iff.mp hp
  obtain ⟨_, routing, -, lookupRouting, rfl⟩ := Config.stage?_eq_ok hrouting (by decide)
  obtain ⟨_, translation, -, lookupTranslation, rfl⟩ := Config.stage?_eq_ok htranslation (by decide)
  obtain ⟨_, optimization, -, lookupOptimization, rfl⟩ := Config.stage?_eq_ok hoptimization (by decide)
  obtain ⟨_, scheduling, -, lookupScheduling, rfl⟩ := Config.stage?_eq_ok hscheduling (by decide)
  obtain ⟨c₁, h₁, c₂, h₂, c₃, h₃, c₄, h₄, c₅, h₅, c₆, h₆, h₇⟩ := StagedPipeline.apply_eq_ok_iff.mp h
  simp only [Option.getD_some] at h₁ h₄ h₅ h₆ h₇
  have size₁ := numQubits_init_stage hchosen h₁
  have size₄ : c₄.numQubits = c₃.numQubits := by
    cases Registry.translation_of_lookup lookupTranslation
    exact Pass.numQubits_of_runAll (by simpa using Pass.keepsSize_translator c) h₄
  have size₅ : c₅.numQubits = c₄.numQubits :=
    Pass.numQubits_of_runAll (fun _ => Pass.keepsSize_of_mem_preOptimizationFor) h₅
  have size₆ : c₆.numQubits = c₅.numQubits := by
    rw [Registry.optimization_of_lookup lookupOptimization] at h₆
    refine Pass.numQubits_of_runAll (List.forall_mem_cons.mpr ⟨Pass.keepsSize_optimizationLoop, fun q hq => ?_⟩) h₆
    split at hq
    · rw [List.mem_singleton.mp hq]
      exact Pass.keepsSize_translator c
    · cases hq
  have size₇ : out.numQubits = c₃.numQubits := by
    rw [(scheduling_stage lookupScheduling h₇).1, size₆, size₅, size₄]
  refine ⟨fun hneeds => ?_, fun hneeds => ?_, Config.reach_eq hsize⟩
  · rw [hneeds, if_pos rfl] at hlayout
    simp only [hneeds, if_true, Option.getD_some] at h₃
    obtain ⟨_, placement, -, lookupLayout, rfl⟩ := Config.stage?_eq_ok hlayout (by decide)
    obtain ⟨hfit, hplaced⟩ := numQubits_layout_stage hvalid hsize lookupLayout h₂
    have hreach := Config.le_reach hsize
    obtain ⟨hmore, hless⟩ := numQubits_routing_stage (n := n) lookupRouting h₃ (by omega)
    rw [size₇]
    omega
  · rw [hneeds] at hlayout
    cases hlayout
    simp only [hneeds, Bool.false_eq_true, if_false] at h₃
    cases Pass.runAll_nil_eq_success.mp h₂
    cases Pass.runAll_nil_eq_success.mp h₃
    rw [size₇, size₁]

/-- A device with three qubits and a gate from the first to the others. -/
def Target.fan : Target Float where
  numQubits := 3
  operations := [("cx", some [⟨[0, 1], none, none⟩, ⟨[0, 2], none, none⟩]), ("h", none), ("measure", none)]

def Config.fan : Config where
  target := some .fan
  layoutMethod := some "trivial"

/-- The stages assembled for it. -/
def StagedPipeline.fan : StagedPipeline where
  init := some (.controlFlowValidation Config.fan.selections none (some .fan) ++ .reductionFor .fan)
  layout := some [.trivialLayout (some 3)]
  routing := some [.lookaheadRouting (some (.ofEdges [(0, 1), (0, 2)]))]
  translation := some [.translator .fan]
  preOptimization := some [.gateDirection (some .fan) (some (.ofEdges [(0, 1), (0, 2)])), .removeResets]
  optimization := some [.optimizationLoop [.mergeRotations, .cancelInverses] 20, .translator .fan]
  scheduling := some []

/-- On a device of its own size, trivial placement leaves the circuit to the other stages as it is. -/
theorem exists_apply_of_trivialLayout {p : StagedPipeline} (hd : d.WellFormed) {P : Circuit Float → Bool}
    (hlayout : p.layout = some [.trivialLayout (some d.numQubits)]) (hinit : Pipeline.apply (p.init.getD []) d = .ok d)
    (hrest : (([StageSlot.routing, .translation, .preOptimization, .optimization, .scheduling].foldlM
      (fun c slot => ((p.stage? slot).getD []).apply c)
      { d with layout := some (.trivial d.numQubits), startTimes := none }).toOption.any P)) :
    ∃ out, p.apply d = .ok out ∧ P out := by
  have hpass : (Pass.trivialLayout (some d.numQubits)).run d =
      .success { d with layout := some (.trivial d.numQubits), startTimes := none } := by
    rw [Pass.run, Outcome.ofCircuit_eq_success]
    exact hd.placeTrivially (Nat.le_refl d.numQubits)
  have hplace : Pipeline.apply [.trivialLayout (some d.numQubits)] d =
      .ok { d with layout := some (.trivial d.numQubits), startTimes := none } :=
    Pipeline.apply_eq_ok.mpr (Pass.runAll_singleton_eq_success.mpr hpass)
  obtain ⟨out, hout, hP⟩ := (Option.any_eq_true _ _).mp hrest
  refine ⟨out, (StagedPipeline.apply_eq_foldlM _ _).trans ?_, hP⟩
  refine bind_eq_ok.mpr ⟨_, hinit, bind_eq_ok.mpr ⟨_, ?_, toOption_eq_some.mp hout⟩⟩
  change Pipeline.apply (p.layout.getD []) d = _
  rw [hlayout]
  exact hplace

theorem apply_fan : ∃ out, StagedPipeline.fan.apply (.ghz 3) = .ok out := by
  obtain ⟨out, hout, -⟩ := exists_apply_of_trivialLayout (p := .fan) (P := fun _ => true) (Circuit.wellFormed_ghz 3)
    rfl rfl (by decide +kernel)
  exact ⟨out, hout⟩

theorem numQubits_of_apply_fan : Config.fan.deviceSize? = some 3 ∧ Config.fan.assemble .builtin = .ok .fan ∧
    ∃ out, StagedPipeline.fan.apply (.ghz 3) = .ok out ∧
    (Config.fan.needsMapping = true → (Circuit.ghz 3 : Circuit Float).numQubits ≤ Config.fan.reach 3 ∧
      3 ≤ out.numQubits ∧ out.numQubits ≤ Config.fan.reach 3) ∧
    (Config.fan.needsMapping = false → out.numQubits = (Circuit.ghz 3 : Circuit Float).numQubits) ∧
    ((∀ t, Config.fan.target = some t → Target.ofParts t.numQubits t.operations = .ok t) → Config.fan.reach 3 = 3) := by
  obtain ⟨out, hout⟩ := apply_fan
  exact ⟨rfl, rfl, out, hout, numQubits_of_apply rfl rfl hout⟩

/-- A device with one qubit and an operation that is not restricted to any links. -/
def Target.unlinked : Target Float := ⟨1, [("cx", none)]⟩

def Config.unlinked : Config := { target := some .unlinked }

/-- The stages assembled for it, without placement and routing. -/
def StagedPipeline.unlinked : StagedPipeline where
  init := some (.controlFlowValidation Config.unlinked.selections none (some .unlinked))
  layout := none
  routing := none
  translation := some [.translator .unlinked]
  preOptimization := some [.removeResets]
  optimization := some [.optimizationLoop [.mergeRotations, .cancelInverses] 20, .translator .unlinked]
  scheduling := some []

def Circuit.pair : Circuit Float := (empty "pair" 2 0).withInstructions [.cx 0 1]

theorem Circuit.wellFormed_pair : pair.WellFormed := by
  constructor <;> simp [pair, withInstructions, empty, Instruction.cx, Instruction.gate, singleQubitNames]

/-- Where nothing has to be mapped, nothing checks that the device is wide enough. -/
theorem lt_numQubits_of_apply_unlinked : Config.unlinked.validate = .ok () ∧ Config.unlinked.deviceSize? = some 1 ∧
    Config.unlinked.assemble .builtin = .ok .unlinked ∧ Circuit.pair.WellFormed ∧
    ∃ out, StagedPipeline.unlinked.apply .pair = .ok out ∧ ¬ out.numQubits ≤ 1 := by
  have hrun : (StagedPipeline.unlinked.apply .pair).toOption.map (·.numQubits) = some 2 := by decide +kernel
  obtain ⟨out, hout, hsize⟩ := Option.map_eq_some_iff.mp hrun
  exact ⟨rfl, rfl, rfl, Circuit.wellFormed_pair, out, toOption_eq_some.mp hout, by omega⟩

end CircuitStages
