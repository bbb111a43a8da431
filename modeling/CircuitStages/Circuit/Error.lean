namespace CircuitStages

inductive LayoutFault where
  /-- A virtual or physical qubit occurs twice. -/
  | mappedTwice
  /-- A pair lies outside the circuit. -/
  | outside (qubit position size : Nat)
  /-- A circuit cannot lose qubits. -/
  | shrinking (size requested : Nat)
  /-- A schedule has one entry per instruction. -/
  | scheduleLength (entries instructions : Nat)
  /-- The device has fewer qubits than the circuit. -/
  | deviceTooSmall (size device : Nat)
  /-- A fault told in words. -/
  | stated (reason : String)
deriving DecidableEq, Repr

def LayoutFault.message : LayoutFault → String
  | .mappedTwice => "a virtual or physical qubit is mapped more than once"
  | .outside qubit position size => s!"q{qubit} -> {position} does not fit a circuit with {size} qubits"
  | .shrinking size requested => s!"cannot shrink circuit from {size} to {requested} qubits"
  | .scheduleLength entries instructions => s!"schedule has {entries} entries for {instructions} instructions"
  | .deviceTooSmall size device => s!"circuit has {size} qubits but the device only {device}"
  | .stated reason => reason

inductive CircuitError where
  | qubitOutOfRange (qubit size : Nat) (gate : Option String)
  | clbitOutOfRange (clbit size : Nat)
  | duplicateQubit (qubit : Nat) (gate : Option String)
  | wrongArity (name : String) (expected found : Nat)
  /-- No rule expands the operation into narrower ones. -/
  | noDecomposition (name : String) (width : Nat)
  /-- No rule leads from the gate to the basis. -/
  | notInBasis (name : String)
  /-- No path links the two positions. -/
  | unroutable (name : String) (first second : Nat)
  | layoutMismatch (fault : LayoutFault)
  /-- The device has the gate in neither direction. -/
  | unsupportedDirection (name : String) (first second : Nat)
deriving DecidableEq, Repr

/-- Names the gate in which an operand is at fault. -/
def gateContext (gate : Option String) : String := gate.elim "" fun name => s!" (gate: {name})"

def CircuitError.message : CircuitError → String
  | .qubitOutOfRange qubit size gate =>
    s!"Qubit q{qubit} out of range for circuit with {size} qubits" ++ gateContext gate
  | .clbitOutOfRange clbit size => s!"Classical bit c{clbit} out of range for circuit with {size} bits"
  | .duplicateQubit qubit gate => s!"Duplicate qubit q{qubit} in operation" ++ gateContext gate
  | .wrongArity name expected found => s!"'{name}' expects {expected} qubit(s), got {found}"
  | .noDecomposition name width =>
    s!"Cannot decompose '{name}' acting on {width} qubits into 1- and 2-qubit operations"
  | .notInBasis name => s!"Gate '{name}' cannot be translated to the target basis"
  | .unroutable name first second => s!"Cannot route '{name}' between physical qubits {first} and {second}"
  | .layoutMismatch fault => "Layout mismatch: " ++ fault.message
  | .unsupportedDirection name first second =>
    s!"Gate '{name}' is not supported on ({first}, {second}) in either direction"

end CircuitStages
