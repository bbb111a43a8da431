import CircuitStages.Config.Error
import CircuitStages.Data.Node
import CircuitStages.Device.Target

namespace CircuitStages

/-- The largest device that is read from data. -/
def maxDeviceQubits : Nat := 2048

/-- Why a device of this size is too large, if it is. -/
def checkDeviceSize (n : Nat) : Except ConfigError Unit :=
  if maxDeviceQubits < n then .error (.deviceTooLarge n maxDeviceQubits) else .ok ()

/-- A fault of the device that is read makes its data contradict itself. -/
def rejectDevice {α : Type} : Except ConfigError α → Decoded α
  | .ok x => .ok x
  | .error e => .error (.rejected e.message)

namespace CouplingMap

/-- The map with these links and at least the given number of qubits, if it is not too large. -/
def ofParts (numQubits : Nat) (edges : List (Nat × Nat)) : Except ConfigError CouplingMap := do
  checkDeviceSize ((edges.map fun e => max e.1 e.2 + 1).foldl max numQubits)
  pure ((ofEdges edges).grow numQubits)

def ofNode (n : Node) : Decoded CouplingMap := do
  let fields ← n.asRecord ["num_qubits", "edges"]
  let numQubits ← defaultedField fields "num_qubits" Node.asNat 0
  let edges ← requiredField fields "edges" (Node.asList (Node.asPair Node.asNat Node.asNat))
  rejectDevice (ofParts numQubits edges)

def toValue (m : CouplingMap) : Value := .object [("edges", .ofPairs m.edges), ("num_qubits", .ofNat m.numQubits)]

end CouplingMap

namespace BasisGates

/-- Names that are read are kept as they are, repeats included. -/
def ofNode (n : Node) : Decoded BasisGates := BasisGates.mk <$> n.asList Node.asText

def toValue (b : BasisGates) : Value := .array (b.gates.map .string)

end BasisGates

namespace OperationProperties

def ofNode (n : Node) : Decoded (OperationProperties Float) := do
  let fields ← n.asRecord ["qubits", "duration", "error"]
  let qubits ← requiredField fields "qubits" (Node.asList Node.asNat)
  let duration ← optionalField fields "duration" Node.asFloat
  let error ← optionalField fields "error" Node.asFloat
  pure ⟨qubits, duration, error⟩

def toValue (p : OperationProperties Float) : Value :=
  .object [("duration", .ofOption .ofFloat p.duration), ("error", .ofOption .ofFloat p.error),
    ("qubits", .ofNats p.qubits)]

end OperationProperties

namespace Target

/-- The target with these operations, if it is not too large and they use its qubits only. -/
def ofParts {τ : Type} (numQubits : Nat) (operations : List (String × Option (List (OperationProperties τ)))) :
    Except ConfigError (Target τ) := do
  checkDeviceSize numQubits
  operations.forM fun op =>
    match ((op.2.getD []).flatMap (·.qubits)).find? (numQubits ≤ ·) with
    | some q => .error (.targetQubitOutOfRange op.1 q numQubits)
    | none => .ok ()
  pure ⟨numQubits, operations⟩

/-- Operations by name; of several with one name the last one counts. -/
def operationsOfNode (n : Node) : Decoded (List (String × Option (List (OperationProperties Float)))) := do
  (← n.asEntries).foldlM (fun found entry => do
    let properties ← entry.2.asOption (Node.asList OperationProperties.ofNode)
    pure (insertEntry entry.1 properties found)) []

def ofNode (n : Node) : Decoded (Target Float) := do
  let fields ← n.asRecord ["num_qubits", "operations"]
  let numQubits ← requiredField fields "num_qubits" Node.asNat
  let operations ← defaultedField fields "operations" operationsOfNode []
  rejectDevice (ofParts numQubits operations)

def toValue (t : Target Float) : Value :=
  let properties (ps : List (OperationProperties Float)) : Value := .array (ps.map OperationProperties.toValue)
  .object [("num_qubits", .ofNat t.numQubits),
    ("operations", .object (t.operations.map fun op => (op.1, .ofOption properties op.2)))]

end Target

end CircuitStages
