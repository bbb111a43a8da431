import CircuitStages.Ascending
import CircuitStages.Device.CouplingMap

namespace CircuitStages

/-- What is known of an operation on one tuple of qubits. -/
structure OperationProperties (τ : Type) where
  /-- The qubits, in the order of the operands. -/
  qubits : List Nat
  duration : Option τ
  /-- The average error rate. -/
  error : Option τ
deriving BEq, DecidableEq, Repr

/-- A device with its operations in ascending order of names; an operation without a list is global. -/
structure Target (τ : Type) where
  numQubits : Nat
  operations : List (String × Option (List (OperationProperties τ)))
deriving BEq, DecidableEq, Repr

namespace Target

variable {τ : Type}

def empty (numQubits : Nat) : Target τ := ⟨numQubits, []⟩

def addGlobal (t : Target τ) (name : String) : Target τ := { t with operations := insertEntry name none t.operations }

/-- Restricts an operation to tuples with the given properties. -/
def addOperation (t : Target τ) (name : String) (properties : List (OperationProperties τ)) : Target τ :=
  { t with operations := insertEntry name (some properties) t.operations }

def operationNames (t : Target τ) : List String := t.operations.map (·.1)

def hasOperation (t : Target τ) (name : String) : Bool := (t.operations.lookup name).isSome

/-- Whether an operation can be issued on exactly these operands in this order. -/
def supports (t : Target τ) (name : String) (qubits : List Nat) : Bool :=
  match t.operations.lookup name with
  | none => false
  | some none => qubits.all (· < t.numQubits)
  | some (some properties) => properties.any (·.qubits == qubits)

/-- The duration of an operation on these operands, where it is known. -/
def duration? (t : Target τ) (name : String) (qubits : List Nat) : Option τ := do
  let properties ← (← t.operations.lookup name)
  let p ← properties.find? (·.qubits == qubits)
  p.duration

def allProperties (t : Target τ) : List (OperationProperties τ) := t.operations.flatMap fun op => op.2.getD []

/-- The links given by operations on pairs, or nothing if no operation is restricted to pairs. -/
def couplingMap? (t : Target τ) : Option CouplingMap :=
  let pairs := t.allProperties.filterMap fun p =>
    match p.qubits with
    | [a, b] => some (a, b)
    | _ => none
  if pairs.isEmpty then none else some ((CouplingMap.ofEdges pairs).grow t.numQubits)

/-- Tuples are compared in order, or as sets of operands in ascending order. -/
def tupleKey (strict : Bool) (qubits : List Nat) : List Nat := if strict then qubits else qubits.mergeSort

/-- The distinct tuples on more than one qubit that some operation lists. -/
def tuples (t : Target τ) (strict : Bool) : List (List Nat) :=
  ((t.allProperties.filter (1 < ·.qubits.length)).map fun p => tupleKey strict p.qubits).eraseDups

/-- The number of tuples of a length that the target knows: all qubits for single ones, else the tuples in use. -/
def tupleCount (t : Target τ) (strict : Bool) (length : Nat) : Nat :=
  if length = 1 then t.numQubits else (t.tuples strict).countP (·.length == length)

/-- The restricted operations whose distinct tuples are not as many as the target knows of the length of their first
one. -/
def nonGlobalOperations (t : Target τ) (strict : Bool) : List String :=
  t.operations.filterMap fun op =>
    match op.2 with
    | some (first :: rest) =>
      let own := ((first :: rest).map fun p => tupleKey strict p.qubits).eraseDups
      if own.length = t.tupleCount strict first.qubits.length then none else some op.1
    | _ => none

end Target

/-- The native operations of a device, in the order in which they were given. -/
structure BasisGates where
  gates : List String
deriving DecidableEq, Repr

namespace BasisGates

/-- The basis of these gates, each kept at its first place. -/
def ofNames (names : List String) : BasisGates :=
  ⟨names.foldl (fun kept name => if kept.contains name then kept else kept ++ [name]) []⟩

def contains (b : BasisGates) (gate : String) : Bool := b.gates.contains gate

def isEmpty (b : BasisGates) : Bool := b.gates.isEmpty

/-- Rotations by `prx` and links by `cz`. -/
def iqm : BasisGates := ⟨["prx", "cz", "measure", "reset", "barrier"]⟩

/-- Rotations by `rz`, `sx` and `x`, and links by `cx`. -/
def ibm : BasisGates := ⟨["rz", "sx", "x", "cx", "measure", "reset", "barrier", "delay", "id"]⟩

/-- All standard gates, and control flow. -/
def universal : BasisGates :=
  ⟨["id", "x", "y", "z", "h", "s", "sdg", "t", "tdg", "sx", "sxdg", "rx", "ry", "rz", "p", "u", "cx", "cy", "cz",
    "swap", "rzz", "cp", "crz", "ccx", "cswap", "measure", "reset", "barrier", "delay", "if_else", "while_loop",
    "for_loop", "switch_case"]⟩

end BasisGates

end CircuitStages
