import CircuitStages.Circuit.Basic

namespace CircuitStages

variable {α : Type}

/-- What becomes of two neighbouring gates. -/
inductive Joined (α : Type) where
  /-- Both stay. -/
  | apart
  /-- Both vanish. -/
  | nothing
  /-- One gate takes the place of both. -/
  | one (i : Instruction α)

def sharesQubit (a b : Instruction α) : Bool := a.qubits.any b.qubits.contains

def covers (a b : Instruction α) : Bool := b.qubits.all a.qubits.contains

/-- Joins gate `i` with its predecessor among the instructions before it, which are listed last one first. There is
nothing to join if the predecessor is no gate, acts on other qubits, or stays apart. -/
def joinBack? (join : Instruction α → Instruction α → Joined α) (i : Instruction α) :
    List (Instruction α) → Option (List (Instruction α))
  | [] => none
  | p :: earlier =>
    if !sharesQubit p i then (joinBack? join i earlier).map (p :: ·)
    else if covers p i && p.isGate && p.width == i.width then
      match join p i with
      | .apart => none
      | .nothing => some earlier
      | .one merged => some (merged :: earlier)
    else none

/-- Whether an instruction may be joined with its predecessor: only a gate on qubits alone. -/
def isJoinable (i : Instruction α) : Bool := i.isGate && i.clbits.isEmpty && !i.qubits.isEmpty

/-- One step of the walk: the instruction is joined with its predecessor or put behind the output. -/
def peepholeStep (join : Instruction α → Instruction α → Joined α) (output : List (Instruction α))
    (i : Instruction α) : List (Instruction α) :=
  if isJoinable i then (joinBack? join i output).getD (i :: output) else i :: output

def peephole (join : Instruction α → Instruction α → Joined α) (is : List (Instruction α)) : List (Instruction α) :=
  (is.foldl (peepholeStep join) []).reverse

/-- Whether two operations have the same operands, up to an exchange where the gate allows it. -/
def sameOperands (a b : Instruction α) : Bool :=
  a.qubits == b.qubits || (symmetricGates.contains a.name && a.width == 2 && a.qubits == b.qubits.reverse)

def selfInverseGates : List String := ["id", "x", "y", "z", "h", "cx", "cy", "cz", "swap"]

def inversePairs : List (String × String) := [("s", "sdg"), ("t", "tdg"), ("sx", "sxdg")]

def rotationGates : List String := ["rx", "ry", "rz", "p", "rxx", "ryy", "rzz", "cp", "crz"]

def areInverse (a b : Instruction α) : Bool :=
  if a.name == b.name && selfInverseGates.contains a.name then sameOperands a b
  else a.qubits == b.qubits && (inversePairs.contains (a.name, b.name) || inversePairs.contains (b.name, a.name))

def cancelPair (a b : Instruction α) : Joined α := if areInverse a b then .nothing else .apart

def cancelInverses (is : List (Instruction α)) : List (Instruction α) := peephole cancelPair is

/-- The sum of two rotations about the same axis; it vanishes if its angle is negligible. -/
def mergePair [Angle α] (a b : Instruction α) : Joined α :=
  if a.name == b.name && rotationGates.contains a.name && sameOperands a b then
    match a.params, b.params with
    | [p], [q] => if Angle.negligible (p + q) then .nothing else .one (.gate a.name a.qubits [p + q])
    | _, _ => .apart
  else .apart

def mergeRotations [Angle α] (is : List (Instruction α)) : List (Instruction α) := peephole mergePair is

/-- Drops every reset on a qubit that is not among the `touched` ones when its turn comes. -/
def dropLeadingResets (touched : List Nat) : List (Instruction α) → List (Instruction α)
  | [] => []
  | i :: rest =>
    let kept := dropLeadingResets (i.qubits ++ touched) rest
    if i.isReset && i.qubits.head?.any fun q => !touched.contains q then kept else i :: kept

/-- The instructions without the resets that come first on their qubit. -/
def removeLeadingResets (is : List (Instruction α)) : List (Instruction α) := dropLeadingResets [] is

end CircuitStages
