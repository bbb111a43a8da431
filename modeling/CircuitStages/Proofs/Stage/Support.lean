import CircuitStages.Proofs.Stage.Sizes

namespace CircuitStages

variable {c : Config} {t : Target Float} {d e : Circuit Float} {ps : Pipeline} {method : String}

/-- Whether compilation for a target repairs directions: some link is missing in one of them, or some operation lists
another number of tuples than the target knows of the length of the first one. -/
def Target.needsTurning (t : Target Float) : Bool :=
  t.couplingMap?.any (!·.isSymmetric) || !(t.nonGlobalOperations true).isEmpty

theorem Target.hasOperation_of_mem {name : String} (h : name ∈ t.operationNames) : t.hasOperation name := by
  obtain ⟨op, hop, rfl⟩ := List.mem_map.mp h
  cases hlookup : t.operations.lookup op.1 with
  | none => simpa using List.lookup_eq_none_iff.mp hlookup op hop
  | some _ => rw [hasOperation, hlookup]; rfl

theorem Target.mem_operationNames {name : String} (h : t.hasOperation name) : name ∈ t.operationNames := by
  obtain ⟨properties, hlookup⟩ := Option.isSome_iff_exists.mp h
  obtain ⟨before, after, hops, -⟩ := List.lookup_eq_some_iff.mp hlookup
  exact List.mem_map.mpr ⟨_, hops ▸ List.mem_append_right _ List.mem_cons_self, rfl⟩

/-- Whether a pair is linked on a target, which all pairs are if it has no links. -/
def Target.Links (t : Target Float) (a b : Nat) : Prop := ∀ m, t.couplingMap? = some m → m.isLinked a b

section Stages

variable (htarget : c.target = some t)

include htarget

theorem effectiveCouplingMap_of_target : c.effectiveCouplingMap = t.couplingMap? := by
  rw [Config.effectiveCouplingMap, htarget]

theorem links_routing_stage (h : Registry.builtin.lookup .routing method c presetLevel = .ok ps) (hd : d.WellFormed)
    (hrun : ps.run d = .success e) : AllLinks (fun _ a b => t.Links a b) e.instructions := by
  intro i hi a b hl m hm
  have hmap : c.effectiveCouplingMap = some m := (effectiveCouplingMap_of_target htarget).trans hm
  rcases Registry.routing_of_lookup h with rfl | rfl | rfl
  · have hpass := Pass.runAll_singleton_eq_success.mp hrun
    rw [hmap] at hpass
    exact (linked_lookaheadRouting hd hpass).2 i hi a b hl
  · have hpass := Pass.runAll_singleton_eq_success.mp hrun
    rw [hmap] at hpass
    exact (linked_basicRouting hd hpass).2 i hi a b hl
  · have hpass := Pass.runAll_singleton_eq_success.mp hrun
    rw [hmap] at hpass
    exact (linked_checkRouting hpass).2 i hi a b hl

theorem translator_of_target (hrun : Pass.runAll [.translator c] d = .success e) :
    ∃ is, translateGates (ascendingTexts t.operationNames) d.instructions = .ok is ∧ d.withInstructions is = e := by
  simp only [Pass.translator, htarget] at hrun
  have hpass : (Pass.translateTo t.operationNames).run d = .success e := Pass.runAll_singleton_eq_success.mp hrun
  rwa [Pass.translateTo, Pass.run, Outcome.ofInstructions_eq_success] at hpass

theorem links_translation_stage (h : Registry.builtin.lookup .translation method c presetLevel = .ok ps)
    (hd : AllLinks (fun _ a b => t.Links a b) d.instructions) (hrun : ps.run d = .success e) :
    AllLinks (fun name a b => t.Links a b ∧ t.hasOperation name) e.instructions := by
  cases Registry.translation_of_lookup h
  obtain ⟨is, his, rfl⟩ := translator_of_target htarget hrun
  intro i hi a b hl
  refine ⟨hd.translateGates (fun p q hpq m hm => m.isLinked_comm p q ▸ hpq m hm) his i hi a b hl, ?_⟩
  have hgate := (Instruction.link?_eq_some_iff.mp hl).2
  have hmem := List.contains_iff_mem.mp (inBasis_translateGates his i hi hgate)
  exact Target.hasOperation_of_mem (mem_ascendingTexts.mp hmem)

/-- After the repairs, gates on two qubits are where the target has them, or on links if nothing is repaired. -/
theorem links_preOptimization_stage
    (hd : AllLinks (fun name a b => t.Links a b ∧ t.hasOperation name) d.instructions)
    (hrun : (Pipeline.preOptimizationFor c c.effectiveCouplingMap).run d = .success e) :
    AllLinks (fun name a b => t.hasOperation name ∧ (t.needsTurning = true → t.supports name [a, b]) ∧
      (t.needsTurning = false → t.Links a b)) e.instructions := by
  have resets {ok : String → Nat → Nat → Prop} (f : Circuit Float) (hf : AllLinks ok f.instructions)
      (hrun : Pass.runAll [.removeResets] f = .success e) : AllLinks ok e.instructions := by
    have hpass := Pass.runAll_singleton_eq_success.mp hrun
    split at hpass
    · rw [Pass.run] at hpass
      cases hpass
      exact hf.removeLeadingResets
    · cases hpass
      exact hf
  rw [effectiveCouplingMap_of_target htarget, Pipeline.preOptimizationFor, htarget, Option.any_some] at hrun
  split at hrun
  next hturn =>
    have hturn : t.needsTurning = true := hturn
    obtain ⟨f, hpass, hrun⟩ := Pass.runAll_cons_eq_success.mp hrun
    have hpass : (Pass.gateDirection (some t) t.couplingMap?).run d = .success f := hpass
    rw [Pass.run, Outcome.ofInstructions_eq_success] at hpass
    obtain ⟨is, his, rfl⟩ := hpass
    have hdirected := (hd.imp fun name a b h => h.2).directGates his
    refine resets (d.withInstructions is) (hdirected.imp fun name a b h => ?_) hrun
    exact ⟨h.2, fun _ => h.1, fun hkeep => absurd (hturn.symm.trans hkeep) (by decide)⟩
  next hturn =>
    have hturn : t.needsTurning = false := by simpa [Target.needsTurning] using hturn
    refine resets d (hd.imp fun name a b h => ?_) hrun
    exact ⟨h.2, fun hrepair => absurd (hturn.symm.trans hrepair) (by decide), fun _ => h.1⟩

theorem links_optimization_stage {ok : String → Nat → Nat → Prop}
    (h : Registry.builtin.lookup .optimization method c presetLevel = .ok ps)
    (hok : ∀ name a b, ok name a b → t.hasOperation name) (hd : AllLinks ok d.instructions)
    (hrun : ps.run d = .success e) : AllLinks ok e.instructions := by
  rw [Registry.optimization_of_lookup h] at hrun
  obtain ⟨f, hloop, hrun⟩ := Pass.runAll_cons_eq_success.mp hrun
  have hf : AllLinks ok f.instructions :=
    invariant_optimizationLoop (P := fun g => AllLinks ok g.instructions) (fun _ hg => hg.mergeRotations)
      (fun _ hg => hg.cancelInverses) hd hloop
  simp only [htarget, Option.isSome_some, Bool.true_or, if_true] at hrun
  obtain ⟨is, his, rfl⟩ := translator_of_target htarget hrun
  refine hf.translateGates_of_basis (fun name a b h => ?_) his
  exact List.contains_iff_mem.mpr (mem_ascendingTexts.mpr (Target.mem_operationNames (hok name a b h)))

end Stages

/-- What is compiled for a target uses its operations only. A gate on two qubits is available on its operands if
directions are repaired; if they are not, a global one is if the circuit is no wider than the target, which mapping
sees to, and a restricted one is if its operation lists pairs only, and at least one. -/
theorem supports_of_apply {p : StagedPipeline} {out : Circuit Float} (htarget : c.target = some t)
    (hload : Target.ofParts t.numQubits t.operations = .ok t) (hp : c.assemble .builtin = .ok p) (hd : d.WellFormed)
    (h : p.apply d = .ok out) : ∀ i ∈ out.instructions, ∀ a b, i.link? = some (a, b) →
      t.hasOperation i.name ∧
      (t.needsTurning = true → t.supports i.name [a, b]) ∧
      (t.operations.lookup i.name = some none → c.needsMapping = true ∨ d.numQubits ≤ t.numQubits →
        t.supports i.name [a, b]) ∧
      ∀ properties, t.operations.lookup i.name = some (some properties) → properties ≠ [] →
        (∀ p ∈ properties, p.qubits.length = 2) → t.supports i.name [a, b] := by
  have hsize : c.deviceSize? = some t.numQubits := by rw [Config.deviceSize?, htarget]
  obtain ⟨hmapped, hunmapped, hreach⟩ := numQubits_of_apply hsize hp h
  have hreach : c.reach t.numQubits = t.numQubits := hreach fun u hu => by
    cases htarget.symm.trans hu
    exact hload
  obtain ⟨-, _, hrouting, layout, hlayout, _, htranslation, _, hoptimization, _, hscheduling, chosen, hchosen,
    rfl⟩ := Config.assemble_eq_ok_iff.mp hp
  obtain ⟨_, routing, -, lookupRouting, rfl⟩ := Config.stage?_eq_ok hrouting (by decide)
  obtain ⟨_, translation, -, lookupTranslation, rfl⟩ := Config.stage?_eq_ok htranslation (by decide)
  obtain ⟨_, optimization, -, lookupOptimization, rfl⟩ := Config.stage?_eq_ok hoptimization (by decide)
  obtain ⟨_, scheduling, -, lookupScheduling, rfl⟩ := Config.stage?_eq_ok hscheduling (by decide)
  obtain ⟨c₁, h₁, c₂, h₂, c₃, h₃, c₄, h₄, c₅, h₅, c₆, h₆, h₇⟩ := StagedPipeline.apply_eq_ok_iff.mp h
  have wf₁ := Pass.wellFormed_of_runAll hd h₁
  have wf₂ := Pass.wellFormed_of_runAll wf₁ h₂
  have wf₃ := Pass.wellFormed_of_runAll wf₂ h₃
  have wf₄ := Pass.wellFormed_of_runAll wf₃ h₄
  have wf₅ := Pass.wellFormed_of_runAll wf₄ h₅
  have wf₆ := Pass.wellFormed_of_runAll wf₅ h₆
  have wf₇ := Pass.wellFormed_of_runAll wf₆ h₇
  have links₃ : AllLinks (fun _ a b => t.Links a b) c₃.instructions := by
    by_cases hneeds : c.needsMapping = true
    · simp only [hneeds, if_true, Option.getD_some] at h₃
      exact links_routing_stage htarget lookupRouting wf₂ h₃
    · -- Without mapping there are no links that gates could miss.
      intro i hi a b hl m hm
      have heff := (effectiveCouplingMap_of_target htarget).trans hm
      exact absurd (by rw [Config.needsMapping, heff]; rfl) hneeds
  have links₄ := links_translation_stage htarget lookupTranslation links₃ h₄
  have links₅ := links_preOptimization_stage htarget links₄ h₅
  have links₆ := links_optimization_stage htarget lookupOptimization (fun _ _ _ h => h.1) links₅ h₆
  obtain ⟨-, same₇⟩ := scheduling_stage lookupScheduling h₇
  intro i hi a b hl
  obtain ⟨hknown, hturned, hkept⟩ := links₆ i (same₇ ▸ hi) a b hl
  refine ⟨hknown, hturned, fun hglobal hfit => ?_, fun properties hlookup hne hpairs => ?_⟩
  · have hwidth : out.numQubits ≤ t.numQubits := by
      rcases hfit with hneeds | hfit
      · exact hreach ▸ (hmapped hneeds).2.2
      · cases hneeds : c.needsMapping with
        | true => exact hreach ▸ (hmapped hneeds).2.2
        | false => exact (hunmapped hneeds).trans_le hfit
    have hlt := wf₇.qubits_lt i hi
    rw [(Instruction.link?_eq_some_iff.mp hl).1] at hlt
    rw [Target.supports, hglobal]
    simpa using ⟨(hlt a (by simp)).trans_le hwidth, (hlt b (by simp)).trans_le hwidth⟩
  · cases hturn : t.needsTurning with
    | true => exact hturned hturn
    | false =>
      obtain ⟨hsymm, hnone⟩ : t.couplingMap?.any (!·.isSymmetric) = false ∧ t.nonGlobalOperations true = [] := by
        simpa [Target.needsTurning] using hturn
      obtain ⟨first, hfirst⟩ := List.exists_mem_of_ne_nil _ hne
      obtain ⟨before, after, hops, -⟩ := List.lookup_eq_some_iff.mp hlookup
      have hall : first ∈ t.allProperties :=
        List.mem_flatMap.mpr ⟨(_, some properties), hops ▸ List.mem_append_right _ List.mem_cons_self, hfirst⟩
      obtain ⟨x, y, hxy⟩ := List.length_eq_two.mp (hpairs first hfirst)
      obtain ⟨m, hm⟩ := Target.exists_couplingMap? hall hxy
      have hboth : m.isSymmetric := by simpa [hm] using hsymm
      exact Target.supports_of_isLinked hnone hm hboth (hkept hturn m hm) hlookup hne hpairs

theorem supports_of_apply_fan : Config.fan.target = some .fan ∧
    Target.ofParts Target.fan.numQubits Target.fan.operations = .ok .fan ∧
    Config.fan.assemble .builtin = .ok .fan ∧ (Circuit.ghz 3 : Circuit Float).WellFormed ∧
    ∃ out, StagedPipeline.fan.apply (.ghz 3) = .ok out ∧
      ∀ i ∈ out.instructions, ∀ a b, i.link? = some (a, b) → Target.fan.supports i.name [a, b] := by
  have hload : Target.ofParts Target.fan.numQubits Target.fan.operations = .ok .fan := rfl
  have hwf := Circuit.wellFormed_ghz (α := Float) 3
  obtain ⟨out, hout⟩ := apply_fan
  refine ⟨rfl, hload, rfl, hwf, out, hout, fun i hi a b hl => ?_⟩
  obtain ⟨-, hturned, -⟩ := supports_of_apply (c := .fan) rfl hload rfl hwf hout i hi a b hl
  exact hturned (by decide)

/-- Whether a circuit has a gate on two qubits that a target does not have there. -/
def Target.misses (t : Target Float) (d : Circuit Float) : Bool :=
  d.instructions.any fun i => i.link?.any fun e => !t.supports i.name [e.1, e.2]

theorem Target.not_forall_supports (h : t.misses d) :
    ¬ ∀ i ∈ d.instructions, ∀ a b, i.link? = some (a, b) → t.supports i.name [a, b] := by
  intro hall
  obtain ⟨i, hi, hmiss⟩ := List.any_eq_true.mp h
  obtain ⟨e, he, hmiss⟩ := (Option.any_eq_true _ _).mp hmiss
  simp [hall i hi e.1 e.2 he] at hmiss

/-- A device with two linked qubits and one operation that it has nowhere. -/
def Target.gapped : Target Float where
  numQubits := 2
  operations := [("cx", some [⟨[0, 1], none, none⟩, ⟨[1, 0], none, none⟩]), ("cz", some [])]

/-- A device with three qubits in a row whose pairs and single qubits one operation mixes: it lists as many tuples as
there are pairs, and not all pairs. -/
def Target.mixed : Target Float where
  numQubits := 3
  operations := [("cx", some [⟨[0, 1], none, none⟩, ⟨[1, 0], none, none⟩, ⟨[1, 2], none, none⟩, ⟨[2, 1], none, none⟩]),
    ("cz", some [⟨[0, 1], none, none⟩, ⟨[1, 0], none, none⟩, ⟨[0], none, none⟩, ⟨[1], none, none⟩])]

/-- Compilation for a target with every qubit at its own number. -/
def Config.inOrder (t : Target Float) : Config where
  target := some t
  layoutMethod := some "trivial"

/-- The stages assembled for it on these links, without a repair of directions. -/
def StagedPipeline.inOrder (t : Target Float) (m : CouplingMap) : StagedPipeline where
  init := some (.controlFlowValidation (Config.inOrder t).selections none (some t) ++ .reductionFor (.inOrder t))
  layout := some [.trivialLayout (some t.numQubits)]
  routing := some [.lookaheadRouting (some m)]
  translation := some [.translator (.inOrder t)]
  preOptimization := some [.removeResets]
  optimization := some [.optimizationLoop [.mergeRotations, .cancelInverses] 20, .translator (.inOrder t)]
  scheduling := some []

/-- A single `cz`. -/
def Circuit.phaseGate (size a b : Nat) : Circuit Float := (empty "phase_gate" size 0).withInstructions [.cz a b]

/-- Some gates are not looked at: those of a circuit that is too wide for a target without links, those whose operation
lists no tuple at all, and those whose operation has other tuples in place of the missing one. -/
theorem not_supports_of_apply :
    (Target.ofParts Target.unlinked.numQubits Target.unlinked.operations = .ok .unlinked ∧
      Config.unlinked.assemble .builtin = .ok .unlinked ∧ Circuit.pair.WellFormed ∧
      ∃ out, StagedPipeline.unlinked.apply .pair = .ok out ∧
        ¬ ∀ i ∈ out.instructions, ∀ a b, i.link? = some (a, b) → Target.unlinked.supports i.name [a, b]) ∧
    (Target.ofParts Target.gapped.numQubits Target.gapped.operations = .ok .gapped ∧
      (Config.inOrder .gapped).assemble .builtin = .ok (.inOrder .gapped (.ofEdges [(0, 1), (1, 0)])) ∧
      (Circuit.phaseGate 2 0 1).WellFormed ∧
      ∃ out, (StagedPipeline.inOrder .gapped (.ofEdges [(0, 1), (1, 0)])).apply (.phaseGate 2 0 1) = .ok out ∧
        ¬ ∀ i ∈ out.instructions, ∀ a b, i.link? = some (a, b) → Target.gapped.supports i.name [a, b]) ∧
    (Target.ofParts Target.mixed.numQubits Target.mixed.operations = .ok .mixed ∧
      (Config.inOrder .mixed).assemble .builtin = .ok (.inOrder .mixed (.linear 3)) ∧
      (Circuit.phaseGate 3 1 2).WellFormed ∧
      ∃ out, (StagedPipeline.inOrder .mixed (.linear 3)).apply (.phaseGate 3 1 2) = .ok out ∧
        ¬ ∀ i ∈ out.instructions, ∀ a b, i.link? = some (a, b) → Target.mixed.supports i.name [a, b]) := by
  have hwell (size a b : Nat) (h : a < size ∧ b < size ∧ a ≠ b) : (Circuit.phaseGate size a b).WellFormed := by
    constructor <;> simp [Circuit.phaseGate, Circuit.withInstructions, Circuit.empty, Instruction.cz, Instruction.gate,
      singleQubitNames, h]
  have hunlinked : (StagedPipeline.unlinked.apply .pair).toOption.any Target.unlinked.misses := by decide +kernel
  obtain ⟨wide, hwide, hmiss⟩ := (Option.any_eq_true _ _).mp hunlinked
  obtain ⟨narrow, hnarrow, hgap⟩ := exists_apply_of_trivialLayout (p := .inOrder .gapped (.ofEdges [(0, 1), (1, 0)]))
    (P := Target.gapped.misses) (hwell 2 0 1 (by decide)) rfl rfl (by decide +kernel)
  obtain ⟨mixed, hmixed, hother⟩ := exists_apply_of_trivialLayout (p := .inOrder .mixed (.linear 3))
    (P := Target.mixed.misses) (hwell 3 1 2 (by decide)) rfl rfl (by decide +kernel)
  refine ⟨⟨rfl, rfl, Circuit.wellFormed_pair, wide, toOption_eq_some.mp hwide, Target.not_forall_supports hmiss⟩,
    ⟨rfl, rfl, hwell 2 0 1 (by decide), narrow, hnarrow, Target.not_forall_supports hgap⟩, ?_⟩
  exact ⟨rfl, rfl, hwell 3 1 2 (by decide), mixed, hmixed, Target.not_forall_supports hother⟩

end CircuitStages
