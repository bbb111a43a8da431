import CircuitStages.Config.Basic
import CircuitStages.Pass.Basic

namespace CircuitStages

namespace Pipeline

/-- Takes operations on three or more qubits apart. -/
def reduction (target : Option (Target Float)) (basis : Option BasisGates) (settings : SynthesisSettings) : Pipeline :=
  [.reduceWide target basis settings]

def reductionFor (c : Config) : Pipeline := reduction c.target c.basisGates c.synthesisSettings

/-- Turns gates into a direction that the device has, and drops resets of fresh qubits, as far as each is asked for. -/
def preOptimization (target : Option (Target Float)) (map : Option CouplingMap) (fixDirection dropResets : Bool) :
    Pipeline :=
  (if fixDirection then [.gateDirection target map] else []) ++ (if dropResets then [.removeResets] else [])

/-- The repairs for a configuration with the given coupling map: directions need them only on an asymmetric device. -/
def preOptimizationFor (c : Config) (map : Option CouplingMap) : Pipeline :=
  if map.any (!·.isSymmetric) || c.target.any (fun t => !(t.nonGlobalOperations true).isEmpty) then
    preOptimization c.target map true true
  else preOptimization none none false true

end Pipeline

/-- The methods of a kind that are known not to handle control flow. -/
def StageKind.methodsWithoutControlFlow : StageKind → List String
  | .routing => ["basic", "lookahead", "stochastic"]
  | .scheduling => ["asap", "alap"]
  | _ => []

/-- What speaks against control flow: some of the chosen methods, and operations that the target lacks, or the basis
where there is no target. -/
def ControlFlowCheck.ofSelections (selections : List (StageKind × String)) (basis : Option BasisGates)
    (target : Option (Target Float)) : ControlFlowCheck where
  methods := (selections.filter fun s => s.1.methodsWithoutControlFlow.contains s.2).map fun s =>
    (s.1.name ++ "_method", s.2)
  operations := controlFlowNames.filter fun op =>
    match target, basis with
    | some t, _ => !t.hasOperation op
    | none, some b => !b.contains op
    | none, none => false

/-- Rejects control flow that the selected methods or the device cannot handle. -/
def Pipeline.controlFlowValidation (selections : List (StageKind × String)) (basis : Option BasisGates)
    (target : Option (Target Float)) : Pipeline :=
  [.controlFlowCheck (.ofSelections selections basis target)]

end CircuitStages
