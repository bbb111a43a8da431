import CircuitStages.Circuit.Basic
import CircuitStages.Data.Json

namespace CircuitStages

/-- A fault of the circuit that is read makes its data contradict itself. -/
def rejectFault {α : Type} : Except CircuitError α → Decoded α
  | .ok x => .ok x
  | .error e => .error (.rejected e.message)

def Node.asPlacements : Node → Decoded (List (Nat × Nat)) := Node.asList (Node.asPair Node.asNat Node.asNat)

namespace Layout

def ofNode (n : Node) : Decoded Layout := do rejectFault (ofDistinct (← n.asPlacements))

def toValue (l : Layout) : Value := .ofPairs l.pairs

end Layout

namespace Instruction

def ofNode (n : Node) : Decoded (Instruction Float) := do
  let fields ← n.asRecord ["name", "qubits", "clbits", "params"]
  let name ← requiredField fields "name" Node.asText
  let qubits ← requiredField fields "qubits" (Node.asList Node.asNat)
  let clbits ← defaultedField fields "clbits" (Node.asList Node.asNat) []
  let params ← defaultedField fields "params" (Node.asList Node.asFloat) []
  pure ⟨name, qubits, clbits, params⟩

def toValue (i : Instruction Float) : Value :=
  .object [("name", .string i.name), ("qubits", .ofNats i.qubits), ("clbits", .ofNats i.clbits),
    ("params", .array (i.params.map .ofFloat))]

end Instruction

namespace Circuit

/-- Puts a circuit together from its parts: the instructions are appended one by one, then both layouts and the schedule
are checked. -/
def ofParts {α : Type} (name : String) (numQubits numClbits : Nat) (instructions : List (Instruction α))
    (layout finalLayout : Option Layout) (startTimes : Option (List α)) : Except CircuitError (Circuit α) := do
  let c ← (empty name numQubits numClbits).pushAll instructions
  layout.forM c.checkLayout
  finalLayout.forM c.checkLayout
  let c := { c with layout, finalLayout }
  match startTimes with
  | some times => c.setStartTimes times
  | none => pure c

def ofNode (n : Node) : Decoded (Circuit Float) := do
  let fields ← n.asRecord
    ["name", "num_qubits", "num_clbits", "instructions", "layout", "final_layout", "start_times"]
  let name ← requiredField fields "name" Node.asText
  let numQubits ← requiredField fields "num_qubits" Node.asNat
  let numClbits ← requiredField fields "num_clbits" Node.asNat
  let instructions ← requiredField fields "instructions" (Node.asList Instruction.ofNode)
  let layout ← optionalField fields "layout" Layout.ofNode
  let finalLayout ← optionalField fields "final_layout" Layout.ofNode
  let startTimes ← optionalField fields "start_times" (Node.asList Node.asFloat)
  rejectFault (ofParts name numQubits numClbits instructions layout finalLayout startTimes)

def toValue (c : Circuit Float) : Value :=
  .object [("name", .string c.name), ("num_qubits", .ofNat c.numQubits), ("num_clbits", .ofNat c.numClbits),
    ("instructions", .array (c.instructions.map Instruction.toValue)),
    ("layout", .ofOption Layout.toValue c.layout), ("final_layout", .ofOption Layout.toValue c.finalLayout),
    ("start_times", .ofOption (fun times => .array (times.map .ofFloat)) c.startTimes)]

/-- The text in which a circuit is stored. -/
def toText (numbers : NumberText) (c : Circuit Float) : String := Json.write numbers c.toValue

def ofText (numbers : NumberText) (text : String) : Decoded (Circuit Float) := do ofNode (← Json.read numbers text)

end Circuit

end CircuitStages
