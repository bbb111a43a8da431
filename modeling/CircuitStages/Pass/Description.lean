import CircuitStages.Pass.Basic
import CircuitStages.Text.Description

namespace CircuitStages

def Description.ofLinks (edges : List (Nat × Nat)) : Description :=
  .ofList (fun e => .tuple "" [.ofNat e.1, .ofNat e.2]) edges

mutual

/-- Shows the kind of a piece of data along with its content. -/
def Value.description : Value → Description
  | .null => .word "Null"
  | .bool b => .tuple "Bool" [.ofBool b]
  | .int n => .tuple "Number" [.word (toString n)]
  | .float x => .tuple "Number" [.word (DecimalStyle.dataText.write x)]
  | .string s => .tuple "String" [.text s]
  | .array items => .labelled "Array" (.list (itemDescriptions items))
  | .object fields => .labelled "Object" (.map (fieldDescriptions fields))

def itemDescriptions : List Value → List Description
  | [] => []
  | item :: rest => item.description :: itemDescriptions rest

def fieldDescriptions : List (String × Value) → List (Description × Description)
  | [] => []
  | (name, value) :: rest => (.text name, value.description) :: fieldDescriptions rest

end

def CouplingMap.description (m : CouplingMap) : Description :=
  .record "CouplingMap" [("num_qubits", .ofNat m.numQubits), ("edges", .ofLinks m.edges)]

def BasisGates.description (b : BasisGates) : Description :=
  .record "BasisGates" [("gates", .ofList .text b.gates)]

def OperationProperties.description (p : OperationProperties Float) : Description :=
  .record "InstructionProperties" [("qubits", .ofList .ofNat p.qubits), ("duration", .ofOption .ofFloat p.duration),
    ("error", .ofOption .ofFloat p.error)]

def Target.description (t : Target Float) : Description :=
  .record "Target" [("num_qubits", .ofNat t.numQubits),
    ("operations", .map (t.operations.map fun op =>
      (.text op.1, .ofOption (.ofList OperationProperties.description) op.2)))]

def SynthesisSettings.description (s : SynthesisSettings) : Description :=
  .record "SynthesisSettings" [("approximation_degree", .ofOption .ofFloat s.approximationDegree),
    ("method", .text s.method), ("plugin_config", s.pluginConfig.description),
    ("hls_config", s.highLevelConfig.description)]

/-- Shows both directions of a layout, each in ascending order. -/
def Layout.description (l : Layout) : Description :=
  let qubit (v : Nat) : Description := .tuple "QubitId" [.ofNat v]
  let byPosition := l.pairs.mergeSort fun a b => a.2 ≤ b.2
  .record "Layout" [("virtual_to_physical", .map (l.pairs.map fun e => (qubit e.1, .ofNat e.2))),
    ("physical_to_virtual", .map (byPosition.map fun e => (.ofNat e.2, qubit e.1)))]

def ControlFlowCheck.description (k : ControlFlowCheck) : Description :=
  .record "ControlFlowCheck" [
    ("unsupported_methods", .ofList (fun m => .tuple "" [.text m.1, .text m.2]) k.methods),
    ("unsupported_ops", .ofList .text k.operations)]

def SchedulingPolicy.description : SchedulingPolicy → Description
  | .asap => .word "Asap"
  | .alap => .word "Alap"

/-- A pass of the given name that has a coupling map or none. -/
def mappedDescription (name : String) (map : Option CouplingMap) : Description :=
  .record name [("coupling_map", .ofOption CouplingMap.description map)]

namespace Pass

mutual

def description : Pass → Description
  | cancelInverses => .word "CancelInverses"
  | mergeRotations => .word "MergeRotations"
  | optimizationLoop body maxRounds =>
    .record "OptimizationLoop" [("body", .record "StagePipeline" [("passes", .list (descriptions body))]),
      ("max_iterations", .ofNat maxRounds)]
  | controlFlowCheck check => check.description
  | removeResets => .word "RemoveResetInZeroState"
  | setLayout layout numPhysical =>
    .record "SetLayout" [("layout", layout.description), ("num_physical", .ofOption .ofNat numPhysical)]
  | trivialLayout numPhysical => .record "TrivialLayout" [("num_physical", .ofOption .ofNat numPhysical)]
  | denseLayout map => .record "DenseLayout" [("coupling_map", map.description)]
  | basicRouting map => mappedDescription "BasicRouting" map
  | lookaheadRouting map => mappedDescription "SabreRouting" map
  | checkRouting map => mappedDescription "CheckRouting" map
  | basisTranslation basis =>
    .record "BasisTranslation" [("basis", .ofOption (fun names => .set (names.map .text)) basis)]
  | gateDirection target map =>
    .record "GateDirection" [("target", .ofOption Target.description target),
      ("coupling_map", .ofOption CouplingMap.description map)]
  | schedule policy target =>
    .record "Schedule" [("policy", policy.description), ("target", .ofOption Target.description target)]
  | reduceWide target basis settings =>
    .record "Unroll3qOrMore" [("target", .ofOption Target.description target),
      ("basis_gates", .ofOption BasisGates.description basis), ("settings", settings.description)]
  | marker label => .tuple "Marker" [.text label]

def descriptions : List Pass → List Description
  | [] => []
  | p :: rest => p.description :: descriptions rest

end

end Pass

namespace Pipeline

def describe (ps : Pipeline) : List String := ps.map (·.description.render)

end Pipeline

end CircuitStages
