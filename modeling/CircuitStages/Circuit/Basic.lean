import CircuitStages.Circuit.Instruction
import CircuitStages.Circuit.Layout

namespace CircuitStages

/-- Instructions in program order on numbered qubits and classical bits, with the placement, the final placement and the
schedule that compilation has given them so far. -/
structure Circuit (α : Type) where
  name : String
  numQubits : Nat
  numClbits : Nat
  instructions : List (Instruction α)
  /-- The placement that has been applied. -/
  layout : Option Layout
  /-- The placement reached after routing. -/
  finalLayout : Option Layout
  /-- The start of each instruction, in their order. -/
  startTimes : Option (List α)
deriving BEq

/-- The first fault among the operands of a gate: a qubit that is out of range, or one given before. -/
def checkQubits (gate : String) (size : Nat) (given : List Nat) : List Nat → Except CircuitError Unit
  | [] => .ok ()
  | q :: rest =>
    if size ≤ q then .error (.qubitOutOfRange q size (some gate))
    else if given.contains q then .error (.duplicateQubit q (some gate))
    else checkQubits gate size (q :: given) rest

namespace Circuit

variable {α : Type}

def empty (name : String) (numQubits numClbits : Nat) : Circuit α :=
  ⟨name, numQubits, numClbits, [], none, none, none⟩

/-- The first reason why an instruction cannot stand in the circuit. -/
def check (c : Circuit α) (i : Instruction α) : Except CircuitError Unit :=
  if singleQubitNames.contains i.name ∧ i.width ≠ 1 then .error (.wrongArity i.name 1 i.width)
  else do
    checkQubits i.name c.numQubits [] i.qubits
    match i.clbits.find? (c.numClbits ≤ ·) with
    | some b => .error (.clbitOutOfRange b c.numClbits)
    | none => .ok ()

/-- The circuit with another instruction list. A schedule of the old one is dropped. -/
def withInstructions (c : Circuit α) (instructions : List (Instruction α)) : Circuit α :=
  { c with instructions, startTimes := none }

def push (c : Circuit α) (i : Instruction α) : Except CircuitError (Circuit α) := do
  c.check i
  pure (c.withInstructions (c.instructions ++ [i]))

def pushAll (c : Circuit α) (is : List (Instruction α)) : Except CircuitError (Circuit α) := is.foldlM push c

def setInstructions (c : Circuit α) (is : List (Instruction α)) : Except CircuitError (Circuit α) := do
  is.forM c.check
  pure (c.withInstructions is)

def expandQubits (c : Circuit α) (n : Nat) : Except CircuitError (Circuit α) :=
  if n < c.numQubits then .error (.layoutMismatch (.shrinking c.numQubits n)) else .ok { c with numQubits := n }

def setStartTimes (c : Circuit α) (times : List α) : Except CircuitError (Circuit α) :=
  if times.length = c.instructions.length then .ok { c with startTimes := some times }
  else .error (.layoutMismatch (.scheduleLength times.length c.instructions.length))

/-- The first pair of a layout that does not fit the circuit. -/
def checkLayout (c : Circuit α) (l : Layout) : Except CircuitError Unit :=
  match l.pairs.find? fun e => c.numQubits ≤ e.1 || c.numQubits ≤ e.2 with
  | some (v, p) => .error (.layoutMismatch (.outside v p c.numQubits))
  | none => .ok ()

/-- What every checked circuit satisfies: its operands are in range and distinct, operations on one qubit have one, its
layouts fit it, and a schedule has one time per instruction. -/
structure WellFormed (c : Circuit α) : Prop where
  qubits_lt : ∀ i ∈ c.instructions, ∀ q ∈ i.qubits, q < c.numQubits
  clbits_lt : ∀ i ∈ c.instructions, ∀ b ∈ i.clbits, b < c.numClbits
  qubits_nodup : ∀ i ∈ c.instructions, i.qubits.Nodup
  width_eq_one : ∀ i ∈ c.instructions, i.name ∈ singleQubitNames → i.width = 1
  layout_lt : ∀ l ∈ c.layout, ∀ e ∈ l.pairs, e.1 < c.numQubits ∧ e.2 < c.numQubits
  finalLayout_lt : ∀ l ∈ c.finalLayout, ∀ e ∈ l.pairs, e.1 < c.numQubits ∧ e.2 < c.numQubits
  startTimes_length : ∀ ts ∈ c.startTimes, ts.length = c.instructions.length

def numOps (c : Circuit α) : Nat := c.instructions.length

def isEmpty (c : Circuit α) : Bool := c.instructions.isEmpty

def countOps (c : Circuit α) (name : String) : Nat := c.instructions.countP (·.name == name)

def containsAny (c : Circuit α) (names : List String) : Bool := c.instructions.any fun i => names.contains i.name

def maxWidth (c : Circuit α) : Nat := (c.instructions.map (·.width)).foldl max 0

end Circuit

/-- The layer of each instruction, where `reached` gives the last layer on each qubit: one past the last layer on its
qubits, or no layer if it has none. -/
def layersFrom {α : Type} (reached : Nat → Nat) : List (Instruction α) → List Nat
  | [] => []
  | i :: rest =>
    let layer := if i.qubits.isEmpty then 0 else (i.qubits.map reached).foldl max 0 + 1
    layer :: layersFrom (fun q => if i.qubits.contains q then layer else reached q) rest

namespace Circuit

variable {α : Type}

/-- The number of layers when every instruction takes one layer on each of its qubits. -/
def depth (c : Circuit α) : Nat := (layersFrom (fun _ => 0) c.instructions).foldl max 0

/-- Two qubits prepared in a Bell state and measured. -/
def bell : Circuit α :=
  (empty "bell" 2 2).withInstructions [.h 0, .cx 0 1, .measure 0 0, .measure 1 1]

/-- Qubits prepared in a GHZ state and measured. -/
def ghz (n : Nat) : Circuit α :=
  (empty s!"ghz_{n}" n n).withInstructions <|
    (if n = 0 then [] else [.h 0]) ++ (List.range (n - 1)).map (fun q => .cx q (q + 1)) ++
      (List.range n).map (fun q => .measure q q)

end Circuit

end CircuitStages
