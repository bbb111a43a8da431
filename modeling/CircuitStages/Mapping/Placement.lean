import CircuitStages.Circuit.Basic
import CircuitStages.Device.Search
import CircuitStages.Marks

namespace CircuitStages

variable {α : Type}

/-- The layout kept where it places a virtual qubit below `numVirtual`; the virtual qubits left over take the lowest
free positions, in ascending order. All of these lie below `numVirtual`, since each virtual qubit that is placed already
takes up one position only. -/
def completeLayout (l : Layout) (numVirtual : Nat) : Layout :=
  let given := l.pairs.filter (·.1 < numVirtual)
  let unplaced := absentBelow numVirtual (given.map (·.1))
  let free := absentBelow numVirtual (given.map (·.2))
  Layout.ofPairs (given ++ unplaced.zip free)

/-- The number of qubits after placement: those of the device, but enough for the circuit and for every position that
the layout names. -/
def placedSize (l : Layout) (numVirtual numPhysical : Nat) : Nat :=
  max (max numPhysical numVirtual) (l.maxPhysical?.elim 0 (· + 1))

def Instruction.place (l : Layout) (i : Instruction α) : Instruction α :=
  i.onQubits (i.qubits.map fun q => (l.physical? q).getD q)

namespace Circuit

/-- The circuit on the positions that a layout gives, on a device with `numPhysical` qubits. -/
def place (c : Circuit α) (l : Layout) (numPhysical : Nat) : Except CircuitError (Circuit α) :=
  if numPhysical < c.numQubits then .error (.layoutMismatch (.deviceTooSmall c.numQubits numPhysical))
  else
    let device := placedSize l c.numQubits numPhysical
    let layout := completeLayout l c.numQubits
    .ok { (c.withInstructions (c.instructions.map (Instruction.place layout))) with
      numQubits := device, layout := some layout }

/-- Places the circuit where a layout given from outside says; the device is as large as the circuit if its size is not
known. -/
def placeGiven (c : Circuit α) (l : Layout) (numPhysical : Option Nat) : Except CircuitError (Circuit α) :=
  c.place l (numPhysical.getD c.numQubits)

def placeTrivially (c : Circuit α) (numPhysical : Option Nat) : Except CircuitError (Circuit α) :=
  c.place (.trivial c.numQubits) (numPhysical.getD c.numQubits)

end Circuit

namespace CouplingMap

/-- The qubit with the most neighbours, the first of several. -/
def hub? (m : CouplingMap) : Option Nat :=
  let degrees := m.neighborTable.map (·.length)
  (List.range m.numQubits).foldl (fun best q =>
    match best with
    | none => some q
    | some b => if degrees.getD b 0 < degrees.getD q 0 then some q else some b) none

/-- All qubits in the order in which placement fills them: those in reach of the best linked qubit, nearest first, then
the others by number. -/
def fillOrder (m : CouplingMap) : List Nat :=
  let reached := (m.hub?.elim [] m.trails).map (·.last)
  reached ++ absentBelow m.numQubits reached

end CouplingMap

/-- Places the circuit on a region grown from the best linked qubit of the device. -/
def Circuit.placeDensely (c : Circuit α) (m : CouplingMap) : Except CircuitError (Circuit α) :=
  let region := m.fillOrder.take c.numQubits
  c.place (.ofPairs (region.zipIdx.map fun e => (e.2, e.1))) m.numQubits

end CircuitStages
