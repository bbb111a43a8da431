import CircuitStages.Proofs.Mapping.Linked
import CircuitStages.Proofs.Mapping.Placement
import CircuitStages.Proofs.Rewrite.Reduction
import CircuitStages.Proofs.Stage.Assembly

namespace CircuitStages

variable {c : Config} {m : CouplingMap} {d e : Circuit Float} {ps : Pipeline} {method : String}

namespace Config

/-- Whether the basis, if there is one, has a gate of this name. -/
def KnowsGate (c : Config) (name : String) : Prop := ∀ b, c.basisGates = some b → b.contains name

/-- Whether a circuit for the device has its size, and its gates on two qubits are in the basis and follow the links. -/
def Accepts (c : Config) (m : CouplingMap) (n : Nat) (d : Circuit Float) : Prop :=
  d.numQubits = n ∧ AllLinks (fun name a b => m.hasEdge a b ∧ c.KnowsGate name) d.instructions

theorem effectiveCouplingMap_eq (hmap : c.couplingMap = some m) (htarget : c.target = none) :
    c.effectiveCouplingMap = some m := by
  rw [effectiveCouplingMap, htarget]
  exact hmap

theorem deviceSize?_eq (hmap : c.couplingMap = some m) (htarget : c.target = none) :
    c.deviceSize? = some m.numQubits := by
  rw [deviceSize?, htarget, hmap]
  rfl

/-- The initial layout of a valid configuration stays on the device. -/
theorem lt_of_mem_initialLayout {n : Nat} {l : Layout} (hvalid : c.validate = .ok ()) (hsize : c.deviceSize? = some n)
    (hl : c.initialLayout = some l) : ∀ e ∈ l.pairs, e.2 < n := by
  have hfault : c.layoutFault? = none := by
    rw [validate] at hvalid
    split at hvalid
    next => cases hvalid
    next hnone =>
      simp only [fault?, Option.orElse_eq_orElse, Option.orElse_eq_or, Option.or_eq_none_iff] at hnone
      exact hnone.2.2.2
  intro e he
  cases hfind : l.pairs.find? (n ≤ ·.2) with
  | none => simpa using List.find?_eq_none.mp hfind e he
  | some x =>
    simp only [layoutFault?, hl, hsize, Option.bind_eq_bind, Option.bind_some, hfind] at hfault
    cases hfault

end Config

section Stages

variable (hmap : c.effectiveCouplingMap = some m) (hsize : c.deviceSize? = some m.numQubits)

include hmap hsize

/-- The layout stage places the circuit by some layout on the device. -/
theorem exists_place_of_layout_stage (hvalid : c.validate = .ok ())
    (h : Registry.builtin.lookup .layout method c presetLevel = .ok ps) (hrun : ps.run d = .success e) :
    ∃ l, d.place l m.numQubits = .ok e ∧ ∀ x ∈ l.pairs, x.2 < m.numQubits ∨ x.2 < d.numQubits := by
  have given (l : Layout) (hl : c.initialLayout = some l)
      (hrun : Pass.runAll [.setLayout l c.deviceSize?] d = .success e) :
      ∃ l, d.place l m.numQubits = .ok e ∧ ∀ x ∈ l.pairs, x.2 < m.numQubits ∨ x.2 < d.numQubits := by
    have hpass : (Pass.setLayout l c.deviceSize?).run d = .success e := Pass.runAll_singleton_eq_success.mp hrun
    rw [Pass.run, Outcome.ofCircuit_eq_success, hsize] at hpass
    exact ⟨l, hpass, fun x hx => .inl (Config.lt_of_mem_initialLayout hvalid hsize hl x hx)⟩
  rcases Registry.layout_of_lookup h with hps | hps
  · cases hl : c.initialLayout with
    | some l =>
      simp only [StageBuilder.denseLayout, hl] at hps
      cases hps
      exact given l hl hrun
    | none =>
      simp only [StageBuilder.denseLayout, hl, hmap, Option.some_or] at hps
      cases hps
      have hpass : (Pass.denseLayout m).run d = .success e := Pass.runAll_singleton_eq_success.mp hrun
      rw [Pass.run, Outcome.ofCircuit_eq_success, Circuit.placeDensely] at hpass
      exact ⟨_, hpass, fun x hx => .inl (Circuit.lt_of_mem_region hx)⟩
  · cases hl : c.initialLayout with
    | some l =>
      simp only [StageBuilder.trivialLayout, StageBuilder.ofPass, hl] at hps
      cases hps
      exact given l hl hrun
    | none =>
      simp only [StageBuilder.trivialLayout, StageBuilder.ofPass, hl] at hps
      cases hps
      have hpass : (Pass.trivialLayout c.deviceSize?).run d = .success e :=
        Pass.runAll_singleton_eq_success.mp hrun
      rw [Pass.run, Outcome.ofCircuit_eq_success, Circuit.placeTrivially, hsize] at hpass
      exact ⟨_, hpass, fun x hx => .inr (Layout.lt_of_mem_trivial hx).2⟩

/-- After placement the circuit has the size of the device. -/
theorem layout_stage (hvalid : c.validate = .ok ())
    (h : Registry.builtin.lookup .layout method c presetLevel = .ok ps) (hd : d.WellFormed)
    (hrun : ps.run d = .success e) : e.WellFormed ∧ e.numQubits = m.numQubits := by
  obtain ⟨l, hplace, hl⟩ := exists_place_of_layout_stage hmap hsize hvalid h hrun
  refine ⟨hd.place hplace, Circuit.numQubits_of_place hplace fun x hx => ?_⟩
  rcases hl x hx with hlt | hlt
  · exact hlt
  · exact hlt.trans_le (Circuit.place_eq_ok_iff.mp hplace).1

omit hsize in
/-- After routing all gates on two qubits are on linked positions. -/
theorem routing_stage (h : Registry.builtin.lookup .routing method c presetLevel = .ok ps) (hd : d.WellFormed)
    (hwidth : d.numQubits = m.numQubits) (hrun : ps.run d = .success e) :
    e.numQubits = m.numQubits ∧ AllLinks (fun _ a b => m.isLinked a b) e.instructions := by
  rcases Registry.routing_of_lookup h with rfl | rfl | rfl
  · have hpass : (Pass.lookaheadRouting c.effectiveCouplingMap).run d = .success e :=
      Pass.runAll_singleton_eq_success.mp hrun
    rw [hmap] at hpass
    obtain ⟨hnum, hlinked⟩ := linked_lookaheadRouting hd hpass
    exact ⟨by rw [hnum, hwidth, Nat.max_self], hlinked⟩
  · have hpass : (Pass.basicRouting c.effectiveCouplingMap).run d = .success e :=
      Pass.runAll_singleton_eq_success.mp hrun
    rw [hmap] at hpass
    obtain ⟨hnum, hlinked⟩ := linked_basicRouting hd hpass
    exact ⟨by rw [hnum, hwidth, Nat.max_self], hlinked⟩
  · have hpass : (Pass.checkRouting c.effectiveCouplingMap).run d = .success e :=
      Pass.runAll_singleton_eq_success.mp hrun
    rw [hmap] at hpass
    obtain ⟨hnum, hlinked⟩ := linked_checkRouting hpass
    exact ⟨hnum.trans hwidth, hlinked⟩

end Stages

/-- What merging and cancelling both keep, the rounds of an optimization loop keep. -/
theorem invariant_optimizationLoop {P : Circuit Float → Prop} {rounds : Nat}
    (hmerge : ∀ f, P f → P (f.withInstructions (mergeRotations f.instructions)))
    (hcancel : ∀ f, P f → P (f.withInstructions (cancelInverses f.instructions))) (hd : P d)
    (hrun : (Pass.optimizationLoop [.mergeRotations, .cancelInverses] rounds).run d = .success e) : P e := by
  have round (f : Circuit Float) (hf : P f) : P (Pass.runAll [.mergeRotations, .cancelInverses] f).circuit := by
    refine Pass.invariant_runAll ?_ hf
    simp only [List.mem_cons, List.not_mem_nil, or_false, forall_eq_or_imp, forall_eq]
    refine ⟨fun g hg => ?_, fun g hg => ?_⟩
    · rw [Pass.run]
      exact hmerge g hg
    · rw [Pass.run]
      exact hcancel g hg
  have hloop : P (repeatShrinking (Pass.runAll [.mergeRotations, .cancelInverses]) rounds d).circuit :=
    invariant_repeatShrinking round hd
  rw [Pass.run] at hrun
  rwa [hrun] at hloop

section Basis

variable (htarget : c.target = none)

include htarget

/-- Translation into the basis of the configuration, if it has one. -/
theorem translator_eq_success (hrun : Pass.runAll [.translator c] d = .success e) :
    (c.basisGates = none ∧ d = e) ∨ ∃ b is, c.basisGates = some b ∧
      translateGates (ascendingTexts b.gates) d.instructions = .ok is ∧ d.withInstructions is = e := by
  cases hb : c.basisGates with
  | none =>
    simp only [Pass.translator, htarget, hb] at hrun
    exact .inl ⟨rfl, Pass.runAll_singleton_eq_success.mp hrun⟩
  | some b =>
    simp only [Pass.translator, htarget, hb] at hrun
    have hpass : (Pass.translateTo b.gates).run d = .success e := Pass.runAll_singleton_eq_success.mp hrun
    rw [Pass.translateTo, Pass.run, Outcome.ofInstructions_eq_success] at hpass
    obtain ⟨is, his, heq⟩ := hpass
    exact .inr ⟨b, is, rfl, his, heq⟩

/-- After translation all gates are in the basis, and still on linked positions. -/
theorem translation_stage (h : Registry.builtin.lookup .translation method c presetLevel = .ok ps)
    (hlinks : AllLinks (fun _ a b => m.isLinked a b) d.instructions) (hrun : ps.run d = .success e) :
    e.numQubits = d.numQubits ∧ AllLinks (fun name a b => m.isLinked a b ∧ c.KnowsGate name) e.instructions := by
  cases Registry.translation_of_lookup h
  rcases translator_eq_success htarget hrun with ⟨hb, rfl⟩ | ⟨b, is, hb, his, rfl⟩
  · refine ⟨rfl, hlinks.imp fun name x y hxy => ⟨hxy, fun b' hb' => ?_⟩⟩
    rw [hb] at hb'
    cases hb'
  · refine ⟨rfl, fun i hi x y hl => ⟨?_, fun b' hb' => ?_⟩⟩
    · exact hlinks.translateGates (fun p q hpq => m.isLinked_comm p q ▸ hpq) his i hi x y hl
    · rw [hb] at hb'
      cases hb'
      have hgate := (Instruction.link?_eq_some_iff.mp hl).2
      have hmem := List.contains_iff_mem.mp (inBasis_translateGates his i hi hgate)
      exact List.contains_iff_mem.mpr (mem_ascendingTexts.mp hmem)

/-- After the repairs all gates on two qubits follow the links. -/
theorem preOptimization_stage
    (hlinks : AllLinks (fun name a b => m.isLinked a b ∧ c.KnowsGate name) d.instructions)
    (hrun : (Pipeline.preOptimizationFor c (some m)).run d = .success e) : c.Accepts m d.numQubits e := by
  have resets (f : Circuit Float) (hf : c.Accepts m d.numQubits f)
      (hrun : Pass.runAll [.removeResets] f = .success e) : c.Accepts m d.numQubits e := by
    have hpass := Pass.runAll_singleton_eq_success.mp hrun
    split at hpass
    · rw [Pass.run] at hpass
      cases hpass
      exact ⟨hf.1, hf.2.removeLeadingResets⟩
    · cases hpass
      exact hf
  rw [Pipeline.preOptimizationFor, htarget] at hrun
  split at hrun
  · obtain ⟨f, hpass, hrun⟩ := Pass.runAll_cons_eq_success.mp hrun
    have hpass : (Pass.gateDirection none (some m)).run d = .success f := hpass
    rw [Pass.run, Outcome.ofInstructions_eq_success] at hpass
    obtain ⟨is, his, rfl⟩ := hpass
    have hdirected := (hlinks.imp fun name x y hxy => hxy.2).directGates his
    exact resets (d.withInstructions is) ⟨rfl, hdirected⟩ hrun
  next hsymm =>
    -- On a device linked both ways the turning is left out: every link is there in the direction asked for.
    have hsymm : m.isSymmetric := by simpa using hsymm
    have hdirected := hlinks.imp fun name x y hxy =>
      And.intro (CouplingMap.hasEdge_of_isLinked hsymm hxy.1) hxy.2
    exact resets d ⟨rfl, hdirected⟩ hrun

omit htarget in
/-- The rounds of the optimization loop only drop gates or merge them into one of the same name. -/
theorem accepts_optimizationLoop {n rounds : Nat} (hd : c.Accepts m n d)
    (hrun : (Pass.optimizationLoop [.mergeRotations, .cancelInverses] rounds).run d = .success e) :
    c.Accepts m n e :=
  invariant_optimizationLoop (fun _ hf => ⟨hf.1, hf.2.mergeRotations⟩) (fun _ hf => ⟨hf.1, hf.2.cancelInverses⟩) hd hrun

/-- Translation of a circuit that the device accepts keeps its gates on two qubits, which are in the basis already. -/
theorem accepts_translator {n : Nat} {b : BasisGates} (hb : c.basisGates = some b) (hd : c.Accepts m n d)
    (hrun : Pass.runAll [.translator c] d = .success e) : c.Accepts m n e ∧ InBasis b.gates e.instructions := by
  rcases translator_eq_success htarget hrun with ⟨hnone, -⟩ | ⟨b', is, hb', his, rfl⟩
  · rw [hb] at hnone
    cases hnone
  · rw [hb] at hb'
    cases hb'
    have hbasis (name : String) (hname : c.KnowsGate name) : (ascendingTexts b.gates).contains name :=
      List.contains_iff_mem.mpr (mem_ascendingTexts.mpr (List.contains_iff_mem.mp (hname b hb)))
    refine ⟨⟨hd.1, hd.2.translateGates_of_basis (fun name x y hxy => hbasis name hxy.2) his⟩, fun i hi hgate => ?_⟩
    have hmem := List.contains_iff_mem.mp (inBasis_translateGates his i hi hgate)
    exact List.contains_iff_mem.mpr (mem_ascendingTexts.mp hmem)

/-- Optimization keeps gates on two qubits along the links, and translates what it was left with. -/
theorem optimization_stage {n : Nat} (h : Registry.builtin.lookup .optimization method c presetLevel = .ok ps)
    (hd : c.Accepts m n d) (hrun : ps.run d = .success e) :
    c.Accepts m n e ∧ ∀ b, c.basisGates = some b → InBasis b.gates e.instructions := by
  rw [Registry.optimization_of_lookup h] at hrun
  obtain ⟨f, hloop, hrun⟩ := Pass.runAll_cons_eq_success.mp hrun
  have hf : c.Accepts m n f := accepts_optimizationLoop hd hloop
  cases hb : c.basisGates with
  | none =>
    simp only [htarget, hb, Option.isSome_none, Bool.or_self, Bool.false_eq_true, if_false] at hrun
    cases Pass.runAll_nil_eq_success.mp hrun
    refine ⟨hf, fun b hb' => ?_⟩
    cases hb'
  | some b =>
    simp only [hb, Option.isSome_some, Bool.or_true, if_true] at hrun
    obtain ⟨he, hbasis⟩ := accepts_translator htarget hb hf hrun
    refine ⟨he, fun b' hb' => ?_⟩
    cases hb'
    exact hbasis

end Basis

/-- The init stage of a configuration that needs mapping is the same whether its method is chosen or not. -/
theorem getD_init_stage {chosen : Option Pipeline} (h : c.stage? .builtin .init = .ok chosen) :
    chosen.getD (.reductionFor c) = .reductionFor c := by
  rw [Config.stage?] at h
  split at h
  next =>
    cases h
    rfl
  next method _ =>
    obtain ⟨ps, hps, rfl⟩ := map_eq_ok.mp h
    exact Registry.init_of_lookup hps

theorem init_stage {selections : List (StageKind × String)} {basis : Option BasisGates} {target : Option (Target Float)}
    (hd : d.WellFormed)
    (hrun : (Pipeline.controlFlowValidation selections basis target ++ Pipeline.reductionFor c).run d = .success e) :
    e.WellFormed := by
  obtain ⟨f, hcheck, hrun⟩ := Pass.runAll_cons_eq_success.mp hrun
  have hcheck : (Pass.controlFlowCheck (.ofSelections selections basis target)).run d = .success f := hcheck
  rw [Pass.run] at hcheck
  split at hcheck
  next =>
    cases hcheck
    have hpass := Pass.runAll_singleton_eq_success.mp hrun
    split at hpass
    · rw [Pass.run, Outcome.ofInstructions_eq_success] at hpass
      obtain ⟨is, his, rfl⟩ := hpass
      exact hd.reduceWide his
    · cases hpass
      exact hd
  next => cases hcheck

/-- Scheduling changes no instruction. -/
theorem scheduling_stage (h : Registry.builtin.lookup .scheduling method c presetLevel = .ok ps)
    (hrun : ps.run d = .success e) : e.numQubits = d.numQubits ∧ e.instructions = d.instructions := by
  rcases Registry.scheduling_of_lookup h with rfl | ⟨policy, rfl⟩
  · cases Pass.runAll_nil_eq_success.mp hrun
    exact ⟨rfl, rfl⟩
  · have hpass : (Pass.schedule policy c.target).run d = .success e := Pass.runAll_singleton_eq_success.mp hrun
    rw [Pass.run] at hpass
    cases hpass
    exact ⟨rfl, rfl⟩

/-- What the built-in stages make of a circuit for a device with a coupling map has the size of the device, all its
gates on two qubits follow links in their direction, and all its gates are in the basis, if one is given. Assembly has
accepted the configuration, so it is valid and its methods are built in. -/
theorem respects_couplingMap_of_apply {p : StagedPipeline} {out : Circuit Float} (hmap : c.couplingMap = some m)
    (htarget : c.target = none) (hp : c.assemble .builtin = .ok p) (hd : d.WellFormed) (h : p.apply d = .ok out) :
    out.numQubits = m.numQubits ∧
    (∀ i ∈ out.instructions, ∀ a b, i.link? = some (a, b) → m.hasEdge a b) ∧
    ∀ b, c.basisGates = some b → ∀ i ∈ out.instructions, i.isGate → b.contains i.name := by
  have heff := Config.effectiveCouplingMap_eq hmap htarget
  have hneeds : c.needsMapping = true := by rw [Config.needsMapping, heff]; rfl
  obtain ⟨hvalid, _, hrouting, _, hlayout, _, htranslation, _, hoptimization, _, hscheduling, chosen, hchosen, rfl⟩ :=
    Config.assemble_eq_ok_iff.mp hp
  rw [hneeds, if_pos rfl] at hlayout
  obtain ⟨_, routing, -, lookupRouting, rfl⟩ := Config.stage?_eq_ok hrouting nofun
  obtain ⟨_, layout, -, lookupLayout, rfl⟩ := Config.stage?_eq_ok hlayout nofun
  obtain ⟨_, translation, -, lookupTranslation, rfl⟩ := Config.stage?_eq_ok htranslation nofun
  obtain ⟨_, optimization, -, lookupOptimization, rfl⟩ := Config.stage?_eq_ok hoptimization nofun
  obtain ⟨_, scheduling, -, lookupScheduling, rfl⟩ := Config.stage?_eq_ok hscheduling nofun
  obtain ⟨c₁, h₁, c₂, h₂, c₃, h₃, c₄, h₄, c₅, h₅, c₆, h₆, h₇⟩ := StagedPipeline.apply_eq_ok_iff.mp h
  simp only [hneeds, if_true, Option.getD_some, getD_init_stage hchosen, heff] at h₁ h₂ h₃ h₄ h₅ h₆ h₇
  have wf₁ := init_stage hd h₁
  obtain ⟨wf₂, size₂⟩ := layout_stage heff (Config.deviceSize?_eq hmap htarget) hvalid lookupLayout wf₁ h₂
  obtain ⟨size₃, links₃⟩ := routing_stage heff lookupRouting wf₂ size₂ h₃
  obtain ⟨size₄, links₄⟩ := translation_stage htarget lookupTranslation links₃ h₄
  have accepts₅ := preOptimization_stage htarget links₄ h₅
  obtain ⟨⟨size₆, links₆⟩, basis₆⟩ := optimization_stage htarget lookupOptimization accepts₅ h₆
  obtain ⟨size₇, same₇⟩ := scheduling_stage lookupScheduling h₇
  refine ⟨?_, ?_, ?_⟩
  · rw [size₇, size₆, size₄, size₃]
  · rw [same₇]
    exact fun i hi x y hl => (links₆ i hi x y hl).1
  · rw [same₇]
    exact basis₆

/-- A device with three qubits whose links all start at the middle one. -/
def Config.outward : Config where
  basisGates := some .ibm
  couplingMap := some (.ofEdges [(1, 0), (1, 2)])
  layoutMethod := some "trivial"

/-- The stages assembled for it. -/
def StagedPipeline.outward : StagedPipeline where
  init := some (.controlFlowValidation Config.outward.selections (some .ibm) none ++ .reductionFor .outward)
  layout := some [.trivialLayout (some 3)]
  routing := some [.lookaheadRouting (some (.ofEdges [(1, 0), (1, 2)]))]
  translation := some [.translator .outward]
  preOptimization := some [.gateDirection none (some (.ofEdges [(1, 0), (1, 2)])), .removeResets]
  optimization := some [.optimizationLoop [.mergeRotations, .cancelInverses] 20, .translator .outward]
  scheduling := some []

theorem apply_outward : ∃ out, StagedPipeline.outward.apply (.ghz 3) = .ok out := by
  let placed : Circuit Float := { (Circuit.ghz 3) with layout := some (.trivial 3) }
  have hinit : Pipeline.apply (StagedPipeline.outward.init.getD []) (.ghz 3) = .ok (.ghz 3) := rfl
  have hpass : (Pass.trivialLayout (some 3)).run (.ghz 3) = .success placed := by
    rw [Pass.run, Outcome.ofCircuit_eq_success]
    exact (Circuit.wellFormed_ghz 3).placeTrivially (Nat.le_refl 3)
  have hlayout : Pipeline.apply (StagedPipeline.outward.layout.getD []) (.ghz 3) = .ok placed :=
    Pipeline.apply_eq_ok.mpr (Pass.runAll_singleton_eq_success.mpr hpass)
  have hrest : ([StageSlot.routing, .translation, .preOptimization, .optimization, .scheduling].foldlM
      (fun c slot => ((StagedPipeline.outward.stage? slot).getD []).apply c) placed).toOption.isSome := by
    decide +kernel
  obtain ⟨out, hout⟩ := exists_eq_ok_of_isSome_toOption hrest
  refine ⟨out, (StagedPipeline.apply_eq_foldlM _ _).trans ?_⟩
  exact bind_eq_ok.mpr ⟨_, hinit, bind_eq_ok.mpr ⟨_, hlayout, hout⟩⟩

theorem respects_couplingMap_outward : ∃ out : Circuit Float,
    Config.outward.couplingMap = some (.ofEdges [(1, 0), (1, 2)]) ∧ Config.outward.target = none ∧
    Config.outward.assemble .builtin = .ok .outward ∧ (Circuit.ghz 3 : Circuit Float).WellFormed ∧
    StagedPipeline.outward.apply (.ghz 3) = .ok out ∧
    out.numQubits = (CouplingMap.ofEdges [(1, 0), (1, 2)]).numQubits ∧
    (∀ i ∈ out.instructions, ∀ a b, i.link? = some (a, b) → (CouplingMap.ofEdges [(1, 0), (1, 2)]).hasEdge a b) ∧
    ∀ b, Config.outward.basisGates = some b → ∀ i ∈ out.instructions, i.isGate → b.contains i.name := by
  obtain ⟨out, hout⟩ := apply_outward
  have hwf := Circuit.wellFormed_ghz (α := Float) 3
  exact ⟨out, rfl, rfl, rfl, hwf, hout, respects_couplingMap_of_apply rfl rfl rfl hwf hout⟩

end CircuitStages
