import CircuitStages.Circuit.Basic
import CircuitStages.Device.Search

namespace CircuitStages

variable {α : Type}

inductive RouteStep (α : Type) where
  /-- A swap that routing inserts between two positions. -/
  | inserted (a b : Nat)
  /-- An instruction of the circuit, on the positions where its wires are. -/
  | routed (i : Instruction α)

namespace RouteStep

def toInstruction : RouteStep α → Instruction α
  | inserted a b => .swap a b
  | routed i => i

def isInserted : RouteStep α → Bool
  | inserted _ _ => true
  | routed _ => false

end RouteStep

/-- Routing in progress. -/
structure RouteState (α : Type) where
  /-- The position of each input wire. -/
  wires : Layout
  /-- The steps so far, last one first. -/
  steps : List (RouteStep α)

namespace RouteState

/-- Every wire at its own position, no step taken. -/
def start (numQubits : Nat) : RouteState α := ⟨.trivial numQubits, []⟩

def position (s : RouteState α) (wire : Nat) : Nat := (s.wires.physical? wire).getD wire

/-- Emits an instruction where its wires are. -/
def emit (s : RouteState α) (i : Instruction α) : RouteState α :=
  { s with steps := .routed (i.onQubits (i.qubits.map s.position)) :: s.steps }

def swap (s : RouteState α) (a b : Nat) : RouteState α := ⟨s.wires.swap a b, .inserted a b :: s.steps⟩

def swapCount (s : RouteState α) : Nat := s.steps.countP (·.isInserted)

/-- The positions of a gate on two qubits that are not linked. -/
def blocked? (m : CouplingMap) (s : RouteState α) (i : Instruction α) : Option (Nat × Nat) :=
  match i.link? with
  | some (a, b) => if m.isLinked (s.position a) (s.position b) then none else some (s.position a, s.position b)
  | none => none

/-- Swaps along a path up to the neighbour of its last qubit. -/
def swapAlong (s : RouteState α) : List Nat → RouteState α
  | a :: b :: c :: rest => (s.swap a b).swapAlong (b :: c :: rest)
  | _ => s

/-- Moves what is at `a` next to `b` along a shortest path. -/
def walk (m : CouplingMap) (s : RouteState α) (name : String) (a b : Nat) : Except CircuitError (RouteState α) :=
  match m.shortestPath? a b with
  | some path => .ok (s.swapAlong path)
  | none => .error (.unroutable name a b)

/-- Emits an instruction, with the swaps it needs in front of it. -/
def routeNext (m : CouplingMap) (s : RouteState α) (i : Instruction α) : Except CircuitError (RouteState α) := do
  let s ←
    match s.blocked? m i with
    | some (a, b) => s.walk m i.name a b
    | none => pure s
  pure (s.emit i)

end RouteState

def routeBasic (m : CouplingMap) (numQubits : Nat) (is : List (Instruction α)) : Except CircuitError (RouteState α) :=
  is.foldlM (RouteState.routeNext m) (.start numQubits)

namespace Circuit

/-- The circuit with the qubits of the whole device, since swaps may touch any of them. -/
def widen (c : Circuit α) (m : CouplingMap) : Circuit α := { c with numQubits := max c.numQubits m.numQubits }

def initialLayout (c : Circuit α) : Layout := c.layout.getD (.trivial c.numQubits)

/-- The circuit with the instructions of a finished run. Its final placement is the initial one followed by the way of
each wire. -/
def finishRoute (c : Circuit α) (s : RouteState α) : Circuit α :=
  { (c.withInstructions (s.steps.reverse.map (·.toInstruction))) with
    finalLayout := some (.ofPairs (c.initialLayout.pairs.map fun e => (e.1, s.position e.2))) }

/-- The circuit when no swap is needed: it ends where it starts. -/
def keepPlacement (c : Circuit α) : Circuit α := { c with finalLayout := c.layout <|> c.finalLayout }

/-- The first gate on two qubits whose operands are not linked. -/
def firstUnrouted? (c : Circuit α) (m : CouplingMap) : Option (String × Nat × Nat) :=
  c.instructions.findSome? fun i =>
    i.link?.bind fun e => if m.isLinked e.1 e.2 then none else some (i.name, e.1, e.2)

/-- Accepts a circuit that needs no routing. -/
def checkRouted (c : Circuit α) (map : Option CouplingMap) : Except CircuitError (Circuit α) :=
  match map.bind c.firstUnrouted? with
  | some (name, a, b) => .error (.unroutable name a b)
  | none => .ok c.keepPlacement

end Circuit

end CircuitStages
