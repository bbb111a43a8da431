import CircuitStages.Circuit.Basic
import CircuitStages.Config.Error
import CircuitStages.Mapping.Lookahead
import CircuitStages.Mapping.Placement
import CircuitStages.Rewrite.Native
import CircuitStages.Rewrite.Peephole
import CircuitStages.Rewrite.Translation
import CircuitStages.Schedule

namespace CircuitStages

/-- What is known, before any circuit is seen, not to go together with control flow. -/
structure ControlFlowCheck where
  /-- Options with the methods chosen for them. -/
  methods : List (String × String)
  /-- Control-flow operations that the device lacks. -/
  operations : List String
deriving DecidableEq, Repr

namespace ControlFlowCheck

def isPermissive (k : ControlFlowCheck) : Bool := k.methods.isEmpty && k.operations.isEmpty

def message (k : ControlFlowCheck) : String :=
  let options := k.methods.map fun m => m.1 ++ "='" ++ m.2 ++ "'"
  "; ".intercalate <|
    (if k.methods.isEmpty then []
      else ["Some options do not support control flow: " ++ ", ".intercalate options]) ++
    (if k.operations.isEmpty then []
      else ["The target does not support control-flow operations: " ++ ", ".intercalate k.operations])

/-- Fails if something is known against control flow and the circuit has some. -/
def run {α : Type} (k : ControlFlowCheck) (c : Circuit α) : Except ConfigError Unit :=
  if k.isPermissive || !c.instructions.any (·.isControlFlow) then .ok ()
  else .error (.controlFlowUnsupported k.message)

end ControlFlowCheck

/-- The passes. A pipeline is a list of them. -/
inductive Pass where
  /-- Removes neighbouring gates that undo each other. -/
  | cancelInverses
  /-- Adds up neighbouring rotations. -/
  | mergeRotations
  /-- Repeats a pipeline until the circuit stops getting smaller, at most `maxRounds` times. -/
  | optimizationLoop (body : List Pass) (maxRounds : Nat)
  /-- Rejects control flow that cannot be handled. -/
  | controlFlowCheck (check : ControlFlowCheck)
  /-- Removes resets of fresh qubits. -/
  | removeResets
  /-- Places the circuit by a given layout. -/
  | setLayout (layout : Layout) (numPhysical : Option Nat)
  /-- Places every qubit at its own number. -/
  | trivialLayout (numPhysical : Option Nat)
  /-- Places the circuit on a well linked region. -/
  | denseLayout (map : CouplingMap)
  /-- Routes gate by gate. -/
  | basicRouting (map : Option CouplingMap)
  /-- Routes with lookahead. -/
  | lookaheadRouting (map : Option CouplingMap)
  /-- Accepts routed circuits only. -/
  | checkRouting (map : Option CouplingMap)
  /-- Writes all gates in a basis, an ascending list of names. -/
  | basisTranslation (basis : Option (List String))
  /-- Turns gates into a direction that the device has. -/
  | gateDirection (target : Option (Target Float)) (map : Option CouplingMap)
  /-- Assigns start times. -/
  | schedule (policy : SchedulingPolicy) (target : Option (Target Float))
  /-- Takes operations on three or more qubits apart. -/
  | reduceWide (target : Option (Target Float)) (basis : Option BasisGates) (settings : SynthesisSettings)
  /-- Does nothing; it marks a place in a pipeline. -/
  | marker (label : String)

/-- Passes in the order in which they run. -/
abbrev Pipeline := List Pass

/-- What a run leaves behind, and why it failed if it did. -/
structure Outcome where
  circuit : Circuit Float
  error : Option StageError

namespace Outcome

def success (c : Circuit Float) : Outcome := ⟨c, none⟩

def failure (c : Circuit Float) (e : StageError) : Outcome := ⟨c, some e⟩

/-- A new circuit, or the given one if there is a fault. -/
def ofCircuit (c : Circuit Float) : Except CircuitError (Circuit Float) → Outcome
  | .ok c' => success c'
  | .error e => failure c (.circuit e)

/-- The circuit with new instructions, or without any if there is a fault. -/
def ofInstructions (c : Circuit Float) : Except CircuitError (List (Instruction Float)) → Outcome
  | .ok is => success (c.withInstructions is)
  | .error e => failure (c.withInstructions []) (.circuit e)

/-- The circuit after a finished run of routing, or without instructions if there is a fault. -/
def ofRoute (c : Circuit Float) : Except CircuitError (RouteState Float) → Outcome
  | .ok s => success (c.finishRoute s)
  | .error e => failure (c.withInstructions []) (.circuit e)

def isFailure (o : Outcome) : Bool := o.error.isSome

def toExcept (o : Outcome) : Except StageError (Circuit Float) :=
  match o.error with
  | none => .ok o.circuit
  | some e => .error e

end Outcome

/-- Routes on the widened circuit; without a coupling map all qubits are linked. -/
def routeOn (router : CouplingMap → Nat → List (Instruction Float) → Except CircuitError (RouteState Float))
    (map : Option CouplingMap) (c : Circuit Float) : Outcome :=
  match map with
  | none => .success c.keepPlacement
  | some m =>
    let wide := c.widen m
    .ofRoute wide (router m wide.numQubits wide.instructions)

/-- Repeats a step until a round neither lowers the depth nor the number of instructions, at most so many times. -/
def repeatShrinking (step : Circuit Float → Outcome) : Nat → Circuit Float → Outcome
  | 0, c => .success c
  | rounds + 1, c =>
    let next := step c
    if next.isFailure || (c.depth ≤ next.circuit.depth && c.numOps ≤ next.circuit.numOps) then next
    else repeatShrinking step rounds next.circuit

namespace Pass

/-- Whether a pass only looks at circuits or rewrites them. -/
inductive Kind where
  | analysis
  | transformation
deriving DecidableEq, Repr

def translateTo (names : List String) : Pass := basisTranslation (some (ascendingTexts names))

def kind : Pass → Kind
  | controlFlowCheck _ | checkRouting _ | schedule _ _ | marker _ => .analysis
  | _ => .transformation

def name : Pass → String
  | cancelInverses => "CancelInverses"
  | mergeRotations => "MergeRotations"
  | optimizationLoop _ _ => "OptimizationLoop"
  | controlFlowCheck _ => "ControlFlowCheck"
  | removeResets => "RemoveResetInZeroState"
  | setLayout _ _ => "SetLayout"
  | trivialLayout _ => "TrivialLayout"
  | denseLayout _ => "DenseLayout"
  | basicRouting _ => "BasicRouting"
  | lookaheadRouting _ => "SabreRouting"
  | checkRouting _ => "CheckRouting"
  | basisTranslation _ => "BasisTranslation"
  | gateDirection _ _ => "GateDirection"
  | schedule .asap _ => "AsapSchedule"
  | schedule .alap _ => "AlapSchedule"
  | reduceWide _ _ _ => "Unroll3qOrMore"
  | marker label => label

/-- Whether there is anything to do for a pass; a pipeline skips it otherwise. -/
def shouldRun (p : Pass) (c : Circuit Float) : Bool :=
  match p with
  | removeResets => 0 < c.countOps "reset"
  | basisTranslation basis => basis.isSome
  | gateDirection target map => target.isSome || map.isSome
  | reduceWide _ _ _ => 3 ≤ c.maxWidth
  | _ => true

mutual

/-- A pass that rewrites the instructions leaves none behind when it fails; one that checks, places or schedules leaves
the circuit as it was. -/
def run : Pass → Circuit Float → Outcome
  | cancelInverses, c => .success (c.withInstructions (CircuitStages.cancelInverses c.instructions))
  | mergeRotations, c => .success (c.withInstructions (CircuitStages.mergeRotations c.instructions))
  | optimizationLoop body maxRounds, c => repeatShrinking (runAll body) maxRounds c
  | controlFlowCheck check, c =>
    match check.run c with
    | .ok () => .success c
    | .error e => .failure c (.config e)
  | removeResets, c => .success (c.withInstructions (removeLeadingResets c.instructions))
  | setLayout layout numPhysical, c => .ofCircuit c (c.placeGiven layout numPhysical)
  | trivialLayout numPhysical, c => .ofCircuit c (c.placeTrivially numPhysical)
  | denseLayout map, c => .ofCircuit c (c.placeDensely map)
  | basicRouting map, c => routeOn routeBasic map c
  | lookaheadRouting map, c => routeOn routeLookahead map c
  | checkRouting map, c => .ofCircuit c (c.checkRouted map)
  | basisTranslation none, c => .success c
  | basisTranslation (some basis), c => .ofInstructions c (translateGates basis c.instructions)
  | gateDirection target map, c => .ofInstructions c (directGates (hasDirection target map) c.instructions)
  | Pass.schedule policy target, c => .success (c.schedule policy target)
  | reduceWide target basis _, c => .ofInstructions c (CircuitStages.reduceWide (isNative target basis) c.instructions)
  | marker _, c => .success c

/-- Runs the passes of a pipeline that have something to do, up to the first failure. -/
def runAll : List Pass → Circuit Float → Outcome
  | [], c => .success c
  | p :: rest, c =>
    if p.shouldRun c then
      let next := p.run c
      if next.isFailure then next else runAll rest next.circuit
    else runAll rest c

end

end Pass

namespace Pipeline

def run (ps : Pipeline) (c : Circuit Float) : Outcome := Pass.runAll ps c

def apply (ps : Pipeline) (c : Circuit Float) : Except StageError (Circuit Float) := (ps.run c).toExcept

def names (ps : Pipeline) : List String := ps.map (·.name)

end Pipeline

end CircuitStages
