import CircuitStages.Proofs.Circuit.Depth
import CircuitStages.Proofs.Pass.WellFormed

namespace CircuitStages

variable {c d : Circuit Float} {p : Pass} {ps : List Pass}

theorem removeLeadingResets_eq_self {α : Type} {is : List (Instruction α)} (h : ∀ i ∈ is, i.isReset = false) :
    removeLeadingResets is = is := by
  have hkeep (touched : List Nat) : dropLeadingResets touched is = is := by
    induction is generalizing touched with
    | nil => rfl
    | cons i is ih =>
      obtain ⟨hi, his⟩ := List.forall_mem_cons.mp h
      simp only [dropLeadingResets, hi, Bool.false_and, Bool.false_eq_true, if_false, ih his]
  exact hkeep []

/-- The circuit without its schedule. -/
def Circuit.unscheduled (c : Circuit Float) : Circuit Float := { c with startTimes := none }

theorem Circuit.depth_congr (h : c.unscheduled = d.unscheduled) : c.depth = d.depth := by
  have hdepth : c.unscheduled.depth = d.unscheduled.depth := by rw [h]
  exact hdepth

theorem Circuit.numOps_congr (h : c.unscheduled = d.unscheduled) : c.numOps = d.numOps := by
  have hsize : c.unscheduled.numOps = d.unscheduled.numOps := by rw [h]
  exact hsize

/-- Whether two runs end alike: with the same error if any, and with circuits that differ in their schedules at most. -/
structure Outcome.EndsLike (o o' : Outcome) : Prop where
  error_eq : o.error = o'.error
  circuit_eq : o.circuit.unscheduled = o'.circuit.unscheduled

namespace Outcome

variable {o o' o'' : Outcome}

theorem EndsLike.symm (h : o.EndsLike o') : o'.EndsLike o := ⟨h.error_eq.symm, h.circuit_eq.symm⟩

theorem EndsLike.trans (h : o.EndsLike o') (h' : o'.EndsLike o'') : o.EndsLike o'' :=
  ⟨h.error_eq.trans h'.error_eq, h.circuit_eq.trans h'.circuit_eq⟩

theorem EndsLike.isFailure_eq (h : o.EndsLike o') : o.isFailure = o'.isFailure := by
  rw [isFailure, isFailure, h.error_eq]

theorem endsLike_ofCircuit (c : Circuit Float) (r : Except CircuitError (Circuit Float)) :
    (ofCircuit c r).EndsLike (ofCircuit c.unscheduled r) := by
  cases r with
  | ok d => exact ⟨rfl, rfl⟩
  | error e => exact ⟨rfl, rfl⟩

theorem endsLike_ofInstructions (c : Circuit Float) (r : Except CircuitError (List (Instruction Float))) :
    (ofInstructions c r).EndsLike (ofInstructions c.unscheduled r) := by
  cases r with
  | ok is => exact ⟨rfl, rfl⟩
  | error e => exact ⟨rfl, rfl⟩

end Outcome

theorem endsLike_routeOn
    (router : CouplingMap → Nat → List (Instruction Float) → Except CircuitError (RouteState Float))
    (map : Option CouplingMap) (c : Circuit Float) :
    (routeOn router map c).EndsLike (routeOn router map c.unscheduled) := by
  cases map with
  | none => exact ⟨rfl, rfl⟩
  | some m =>
    have hsame : routeOn router (some m) c.unscheduled =
        .ofRoute (c.unscheduled.widen m) (router m (c.widen m).numQubits (c.widen m).instructions) := rfl
    rw [routeOn, hsame]
    cases router m (c.widen m).numQubits (c.widen m).instructions with
    | ok s => exact ⟨rfl, rfl⟩
    | error e => exact ⟨rfl, rfl⟩

/-- Loops whose rounds end alike end alike, since neither depth nor size depend on the schedule. -/
theorem endsLike_repeatShrinking {step step' : Circuit Float → Outcome} {rounds : Nat}
    (hstep : ∀ c d, c.unscheduled = d.unscheduled → (step c).EndsLike (step' d)) (h : c.unscheduled = d.unscheduled) :
    (repeatShrinking step rounds c).EndsLike (repeatShrinking step' rounds d) := by
  induction rounds generalizing c d with
  | zero => exact ⟨rfl, h⟩
  | succ rounds ih =>
    have hnext := hstep c d h
    rw [repeatShrinking, repeatShrinking]
    simp only [hnext.isFailure_eq, Circuit.depth_congr h, Circuit.depth_congr hnext.circuit_eq, Circuit.numOps_congr h,
      Circuit.numOps_congr hnext.circuit_eq]
    split
    · exact hnext
    · exact ih hnext.circuit_eq

namespace Pass

/-- A pass that has nothing to do would leave the circuit as it is, except that it may drop the schedule. -/
theorem run_of_shouldRun_eq_false (h : p.shouldRun c = false) :
    p.run c = .success c ∨ p.run c = .success c.unscheduled := by
  cases p with
  | removeResets =>
    have hnone : ∀ i ∈ c.instructions, i.isReset = false := by
      simpa [shouldRun, Circuit.countOps, List.countP_eq_zero, Instruction.isReset] using h
    rw [run, removeLeadingResets_eq_self hnone]
    exact .inr rfl
  | basisTranslation basis =>
    cases basis with
    | none =>
      rw [run]
      exact .inl rfl
    | some names => cases h
  | gateDirection target map =>
    obtain ⟨rfl, rfl⟩ : target = none ∧ map = none := by simpa [shouldRun] using h
    have hall : AllLinks (fun name a b => hasDirection (none : Option (Target Float)) none name a b) c.instructions :=
      fun _ _ _ _ _ => rfl
    rw [run, directGates_of_supported hall]
    exact .inr rfl
  | reduceWide target basis settings =>
    have hnarrow : ∀ i ∈ c.instructions, i.width < 3 := by
      intro i hi
      have hmax : c.maxWidth < 3 := by simpa [shouldRun] using h
      exact Nat.lt_of_le_of_lt (le_foldl_max (List.mem_map_of_mem hi)) hmax
    rw [run, reduceWide_of_width_lt hnarrow]
    exact .inr rfl
  | _ => cases h

/-- No pass outside loops reads the schedule. -/
theorem endsLike_run (p : Pass) (hp : ∀ body rounds, p ≠ optimizationLoop body rounds) (c : Circuit Float) :
    (p.run c).EndsLike (p.run c.unscheduled) := by
  cases p with
  | optimizationLoop body rounds => exact absurd rfl (hp body rounds)
  | cancelInverses | mergeRotations | removeResets | schedule | marker =>
    rw [run, run]
    exact ⟨rfl, rfl⟩
  | controlFlowCheck check =>
    have hsame : check.run c.unscheduled = check.run c := rfl
    rw [run, run, hsame]
    cases check.run c with
    | ok => exact ⟨rfl, rfl⟩
    | error e => exact ⟨rfl, rfl⟩
  | setLayout layout numPhysical =>
    rw [run, run]
    exact Outcome.endsLike_ofCircuit c (c.placeGiven layout numPhysical)
  | trivialLayout numPhysical =>
    rw [run, run]
    exact Outcome.endsLike_ofCircuit c (c.placeTrivially numPhysical)
  | denseLayout map =>
    rw [run, run]
    exact Outcome.endsLike_ofCircuit c (c.placeDensely map)
  | basicRouting map =>
    rw [run, run]
    exact endsLike_routeOn routeBasic map c
  | lookaheadRouting map =>
    rw [run, run]
    exact endsLike_routeOn routeLookahead map c
  | checkRouting map =>
    have hsame : map.bind c.unscheduled.firstUnrouted? = map.bind c.firstUnrouted? := rfl
    rw [run, run, Circuit.checkRouted, Circuit.checkRouted, hsame]
    cases map.bind c.firstUnrouted? with
    | none => exact ⟨rfl, rfl⟩
    | some e => exact ⟨rfl, rfl⟩
  | basisTranslation basis =>
    cases basis with
    | none =>
      rw [run, run]
      exact ⟨rfl, rfl⟩
    | some names =>
      rw [run, run]
      exact Outcome.endsLike_ofInstructions c (translateGates names c.instructions)
  | gateDirection target map =>
    rw [run, run]
    exact Outcome.endsLike_ofInstructions c (directGates (hasDirection target map) c.instructions)
  | reduceWide target basis settings =>
    rw [run, run]
    exact Outcome.endsLike_ofInstructions c (CircuitStages.reduceWide (isNative target basis) c.instructions)

mutual

/-- A pass, where the loops run every pass of their body, whether it has something to do or not. -/
def runAlways : Pass → Circuit Float → Outcome
  | optimizationLoop body maxRounds, c => repeatShrinking (runAllAlways body) maxRounds c
  | p, c => p.run c

/-- Runs every pass of a pipeline, whether it has something to do or not, up to the first failure. -/
def runAllAlways : List Pass → Circuit Float → Outcome
  | [], c => .success c
  | p :: rest, c =>
    let next := p.runAlways c
    if next.isFailure then next else runAllAlways rest next.circuit

end

theorem runAlways_eq_run (hp : ∀ body rounds, p ≠ optimizationLoop body rounds) (c : Circuit Float) :
    p.runAlways c = p.run c := by
  rw [runAlways]
  exact hp

/-- If no pass of a pipeline tells whether others are skipped, the pipeline does not. -/
theorem endsLike_runAllAlways_of
    (hps : ∀ p ∈ ps, ∀ c d, c.unscheduled = d.unscheduled → (p.run c).EndsLike (p.runAlways d))
    (h : c.unscheduled = d.unscheduled) : (runAll ps c).EndsLike (runAllAlways ps d) := by
  induction ps generalizing c d with
  | nil =>
    rw [runAll, runAllAlways]
    exact ⟨rfl, h⟩
  | cons p ps ih =>
    obtain ⟨hp, hrest⟩ := List.forall_mem_cons.mp hps
    have hnext := hp c d h
    rw [runAll, runAllAlways]
    -- the pass runs on both sides, or on the right alone, where it only may drop the schedule
    split
    · simp only [hnext.isFailure_eq]
      split
      · exact hnext
      · exact ih hrest hnext.circuit_eq
    next hskip =>
      have hdone : (p.run c).EndsLike (.success c) := by
        rcases run_of_shouldRun_eq_false (by simpa using hskip) with hrun | hrun
        · rw [hrun]
          exact ⟨rfl, rfl⟩
        · rw [hrun]
          exact ⟨rfl, rfl⟩
      have hforced := hnext.symm.trans hdone
      have hok : (p.runAlways d).isFailure = false := hforced.isFailure_eq
      simp only [hok]
      exact ih hrest hforced.circuit_eq.symm

theorem endsLike_runAlways (p : Pass) (h : c.unscheduled = d.unscheduled) : (p.run c).EndsLike (p.runAlways d) := by
  induction p using induction_on_loops generalizing c d with
  | step p ih =>
    by_cases hp : ∃ body rounds, p = optimizationLoop body rounds
    · obtain ⟨body, rounds, rfl⟩ := hp
      rw [run, runAlways]
      exact endsLike_repeatShrinking
        (fun c d hcd => endsLike_runAllAlways_of (fun q hq c d hqd => ih body rounds rfl q hq hqd) hcd) h
    · push Not at hp
      rw [runAlways_eq_run hp]
      -- both circuits are compared by way of the one without a schedule that they share
      have hd := endsLike_run p hp d
      rw [← h] at hd
      exact (endsLike_run p hp c).trans hd.symm

/-- Skipping a pass cannot be observed except in the schedule. A pass that has nothing to do would succeed and leave the
circuit as it is, or without its schedule; hence a pipeline that runs every pass, also in its loops, ends with the same
error, if any, and with the same circuit but for the schedule. -/
theorem skipping_unobservable :
    (∀ (p : Pass) (c : Circuit Float), p.shouldRun c = false →
      ∃ d, p.run c = .success d ∧ (d = c ∨ d = { c with startTimes := none })) ∧
    ∀ (ps : List Pass) (c : Circuit Float), (runAll ps c).error = (runAllAlways ps c).error ∧
      (runAll ps c).circuit.unscheduled = (runAllAlways ps c).circuit.unscheduled := by
  constructor
  · intro p c h
    rcases run_of_shouldRun_eq_false h with hrun | hrun
    · exact ⟨c, hrun, .inl rfl⟩
    · exact ⟨c.unscheduled, hrun, .inr rfl⟩
  · intro ps c
    have hends : (runAll ps c).EndsLike (runAllAlways ps c) :=
      endsLike_runAllAlways_of (fun p _ _ _ h => endsLike_runAlways p h) rfl
    exact ⟨hends.error_eq, hends.circuit_eq⟩

/-- A scheduled circuit without resets. What is skipped in the loop would only drop the schedule. -/
theorem skipping_unobservable_scheduled :
    let ps : List Pass := [.schedule .asap none, .optimizationLoop [.removeResets, .gateDirection none none] 2]
    let c : Circuit Float := .ghz 2
    removeResets.shouldRun (c.schedule .asap none) = false ∧
      (∃ d, removeResets.run (c.schedule .asap none) = .success d ∧
        (d = c.schedule .asap none ∨ d = { c.schedule .asap none with startTimes := none })) ∧
      (runAll ps c).circuit.startTimes.isSome ∧ (runAllAlways ps c).circuit.startTimes = none ∧
      (runAll ps c).circuit.unscheduled = (runAllAlways ps c).circuit.unscheduled := by
  intro ps c
  have hskip : removeResets.shouldRun (c.schedule .asap none) = false := by decide
  exact ⟨hskip, skipping_unobservable.1 _ _ hskip, by rfl, by rfl, (skipping_unobservable.2 ps c).2⟩

end Pass

end CircuitStages
