import CircuitStages.Proofs.Mapping.Kept
import CircuitStages.Proofs.Mapping.Placement
import CircuitStages.Proofs.Rewrite.Peephole
import CircuitStages.Proofs.Rewrite.Reduction
import CircuitStages.Proofs.Rewrite.Translation

namespace CircuitStages

variable {α : Type} {c : Circuit α} {i j : Instruction α} {js : List (Instruction α)}

namespace Circuit

theorem WellFormed.withoutInstructions (hc : c.WellFormed) : (c.withInstructions []).WellFormed :=
  hc.withInstructions (by simp)

theorem WellFormed.removeLeadingResets (hc : c.WellFormed) :
    (c.withInstructions (CircuitStages.removeLeadingResets c.instructions)).WellFormed :=
  hc.withInstructions fun _ hi => hc.fits (mem_of_mem_dropLeadingResets hi)

theorem Fits.directOne {supported : String → Nat → Nat → Bool} (hi : c.Fits i)
    (h : CircuitStages.directOne supported i = .ok js) (hj : j ∈ js) : c.Fits j := by
  rcases directOne_eq_ok_iff.mp h with ⟨rfl, -⟩ | ⟨a, b, hab, -, -, hturned⟩
  · rwa [List.mem_singleton.mp hj]
  · obtain ⟨hqubits, -⟩ := Instruction.link?_eq_some_iff.mp hab
    have hlt := hi.qubits_lt
    have hnd := hi.qubits_nodup
    rw [hqubits] at hlt hnd
    have ha : a < c.numQubits := hlt a (by simp)
    have hb : b < c.numQubits := hlt b (by simp)
    have hne : b ≠ a := by simpa [eq_comm] using hnd
    rcases hturned with ⟨-, rfl⟩ | ⟨-, rfl⟩
    · simp only [turnedCx, List.mem_cons, List.not_mem_nil, or_false] at hj
      rcases hj with rfl | rfl | rfl | rfl | rfl
      · exact fits_gate_one ha
      · exact fits_gate_one hb
      · exact fits_gate_two hb ha hne (by decide)
      · exact fits_gate_one ha
      · exact fits_gate_one hb
    · rw [List.mem_singleton.mp hj]
      refine ⟨?_, hi.clbits_lt, ?_, fun hname => ?_⟩
      · simp [Instruction.onQubits, ha, hb]
      · simpa [Instruction.onQubits] using hne
      · have hwidth := hi.width_eq_one hname
        rw [Instruction.width, hqubits] at hwidth
        cases hwidth

theorem WellFormed.directGates {supported : String → Nat → Nat → Bool} (hc : c.WellFormed)
    (h : CircuitStages.directGates supported c.instructions = .ok js) : (c.withInstructions js).WellFormed := by
  refine hc.withInstructions fun j hj => ?_
  obtain ⟨i, hi, gs, hgs, hmem⟩ := exists_of_mem_flatten_mapM h hj
  exact (hc.fits hi).directOne hgs hmem

end Circuit

section Schedule

variable [Duration α] {duration : Instruction α → α}

theorem length_earliestSlots (qubitFree clbitFree : Nat → α) (is : List (Instruction α)) :
    (earliestSlots duration qubitFree clbitFree is).length = is.length := by
  induction is generalizing qubitFree clbitFree with
  | nil => rfl
  | cons i is ih => rw [earliestSlots, List.length_cons, ih, List.length_cons]

theorem length_scheduledStarts (policy : SchedulingPolicy) (is : List (Instruction α)) :
    (scheduledStarts policy duration is).length = is.length := by
  have hslots (js : List (Instruction α)) : (slots duration js).length = js.length := length_earliestSlots _ _ js
  cases policy with
  | asap => rw [scheduledStarts, List.length_map, hslots]
  | alap => simp only [scheduledStarts, List.length_map, List.length_reverse, hslots]

theorem Circuit.setStartTimes_scheduledStarts (c : Circuit α) (policy : SchedulingPolicy) (target : Option (Target α)) :
    c.setStartTimes (scheduledStarts policy (instructionDuration target) c.instructions) =
      .ok (c.schedule policy target) := if_pos (length_scheduledStarts policy c.instructions)

theorem Circuit.WellFormed.schedule (hc : c.WellFormed) (policy : SchedulingPolicy) (target : Option (Target α)) :
    (c.schedule policy target).WellFormed := by
  refine ⟨hc.qubits_lt, hc.clbits_lt, hc.qubits_nodup, hc.width_eq_one, hc.layout_lt, hc.finalLayout_lt, ?_⟩
  intro ts hts
  cases hts
  exact length_scheduledStarts policy c.instructions

end Schedule

namespace Outcome

variable {c : Circuit Float}

theorem wellFormed_ofCircuit {r : Except CircuitError (Circuit Float)} (hc : c.WellFormed)
    (hr : ∀ d, r = .ok d → d.WellFormed) : (ofCircuit c r).circuit.WellFormed := by
  cases r with
  | ok d => exact hr d rfl
  | error e => exact hc

theorem wellFormed_ofInstructions {r : Except CircuitError (List (Instruction Float))} (hc : c.WellFormed)
    (hr : ∀ is, r = .ok is → (c.withInstructions is).WellFormed) : (ofInstructions c r).circuit.WellFormed := by
  cases r with
  | ok is => exact hr is rfl
  | error e => exact hc.withoutInstructions

theorem wellFormed_ofRoute {r : Except CircuitError (RouteState Float)} (hc : c.WellFormed)
    (hr : ∀ s, r = .ok s → s.FitsIn c) : (ofRoute c r).circuit.WellFormed := by
  cases r with
  | ok s => exact hc.finishRoute (hr s rfl)
  | error e => exact hc.withoutInstructions

end Outcome

theorem wellFormed_routeOn
    {router : CouplingMap → Nat → List (Instruction Float) → Except CircuitError (RouteState Float)} {c : Circuit Float}
    (map : Option CouplingMap) (hc : c.WellFormed)
    (hrouter : ∀ m d s, d.WellFormed → m.numQubits ≤ d.numQubits → router m d.numQubits d.instructions = .ok s →
      s.FitsIn d) : (routeOn router map c).circuit.WellFormed := by
  cases map with
  | none => exact hc.keepPlacement
  | some m =>
    have hwide := hc.widen m
    exact Outcome.wellFormed_ofRoute hwide fun s hs => hrouter m _ s hwide (Nat.le_max_right _ _) hs

namespace Pass

/-- What holds of a loop if it holds of the passes in its body, and of every other pass, holds of all passes. -/
theorem induction_on_loops {motive : Pass → Prop} (p : Pass)
    (step : ∀ p, (∀ body rounds, p = optimizationLoop body rounds → ∀ q ∈ body, motive q) → motive p) : motive p := by
  refine step p fun body rounds hp q hq => induction_on_loops q step
termination_by p
decreasing_by
  subst hp
  have := List.sizeOf_lt_of_mem hq
  simp only [optimizationLoop.sizeOf_spec]
  omega

variable {c : Circuit Float}

/-- Every pass leaves a well-formed circuit behind if it is given one, whether it succeeds or fails. -/
theorem wellFormed_run (p : Pass) (hc : c.WellFormed) : (p.run c).circuit.WellFormed := by
  induction p using induction_on_loops generalizing c with
  | step p ih =>
    cases p with
    | cancelInverses =>
      rw [run]
      exact hc.peephole keepsOperands_cancelPair
    | mergeRotations =>
      rw [run]
      exact hc.peephole keepsOperands_mergePair
    | optimizationLoop body rounds =>
      have hround (d : Circuit Float) (hd : d.WellFormed) : (runAll body d).circuit.WellFormed :=
        invariant_runAll (fun q hq d hd => ih body rounds rfl q hq hd) hd
      rw [run]
      exact invariant_repeatShrinking hround hc
    | controlFlowCheck check =>
      rw [run]
      split
      · exact hc
      · exact hc
    | removeResets =>
      rw [run]
      exact hc.removeLeadingResets
    | setLayout layout numPhysical =>
      rw [run]
      exact Outcome.wellFormed_ofCircuit hc fun d hd => hc.place hd
    | trivialLayout numPhysical =>
      rw [run]
      exact Outcome.wellFormed_ofCircuit hc fun d hd => hc.place hd
    | denseLayout map =>
      rw [run]
      exact Outcome.wellFormed_ofCircuit hc fun d hd => hc.place hd
    | basicRouting map =>
      rw [run]
      exact wellFormed_routeOn map hc fun m d s hd hm hs => hd.fitsIn_routeBasic hm hs
    | lookaheadRouting map =>
      rw [run]
      exact wellFormed_routeOn map hc fun m d s hd hm hs => hd.fitsIn_routeLookahead hm hs
    | checkRouting map =>
      rw [run]
      refine Outcome.wellFormed_ofCircuit hc fun d hd => ?_
      rw [Circuit.checkRouted] at hd
      split at hd
      · cases hd
      · cases hd
        exact hc.keepPlacement
    | basisTranslation basis =>
      cases basis with
      | none =>
        rw [run]
        exact hc
      | some names =>
        rw [run]
        exact Outcome.wellFormed_ofInstructions hc fun is his => hc.translateGates his
    | gateDirection target map =>
      rw [run]
      exact Outcome.wellFormed_ofInstructions hc fun is his => hc.directGates his
    | schedule policy target =>
      rw [run]
      exact hc.schedule policy target
    | reduceWide target basis settings =>
      rw [run]
      exact Outcome.wellFormed_ofInstructions hc fun is his => hc.reduceWide his
    | marker label =>
      rw [run]
      exact hc

theorem wellFormed_runAll (ps : List Pass) (hc : c.WellFormed) : (runAll ps c).circuit.WellFormed :=
  invariant_runAll (fun p _ _ hd => p.wellFormed_run hd) hc

theorem wellFormed_of_runAll {ps : List Pass} {out : Circuit Float} (hc : c.WellFormed)
    (h : runAll ps c = .success out) : out.WellFormed := by
  have hkept := wellFormed_runAll ps hc
  rwa [h] at hkept

end Pass

end CircuitStages
