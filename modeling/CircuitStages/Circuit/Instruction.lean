namespace CircuitStages

/-- Numbers that serve as gate angles. The passes use only the operations named here, so a law about exact numbers is a
law about the same definitions that run on floating point. -/
class Angle (α : Type) extends Zero α, Add α, Neg α where
  /-- Half a turn. -/
  pi : α
  /-- Half of an angle. -/
  half : α → α
  /-- Whether a rotation by this angle is dropped as no rotation at all. -/
  negligible : α → Bool

/-- Numbers that serve as durations and points in time. -/
class Duration (τ : Type) extends Zero τ, One τ, Add τ, Sub τ where
  /-- The later of two points in time. -/
  later : τ → τ → τ

/-- Angles below `1e-10` in absolute value are negligible. -/
instance : Angle Float where
  zero := 0.0
  pi := 3.141592653589793
  half x := x / 2.0
  negligible x := x.abs < 1e-10

/-- What is no later than the time reached, or is no number, does not move it. -/
instance : Duration Float where
  zero := 0.0
  one := 1.0
  later reached t := if reached < t then t else reached

/-- One operation. Qubits and classical bits are given by index. -/
structure Instruction (α : Type) where
  name : String
  qubits : List Nat
  /-- Classical bits that are read or written. -/
  clbits : List Nat
  /-- Angles, or the length of a delay. -/
  params : List α
deriving BEq, DecidableEq, Repr

/-- The constructs whose body the passes do not look into. -/
def controlFlowNames : List String := ["if_else", "while_loop", "for_loop", "switch_case"]

/-- The operations that act on exactly one qubit although they are no gates. -/
def singleQubitNames : List String := ["measure", "reset", "delay"]

namespace Instruction

variable {α : Type}

def gate (name : String) (qubits : List Nat) (params : List α) : Instruction α := ⟨name, qubits, [], params⟩

def h (q : Nat) : Instruction α := gate "h" [q] []
def x (q : Nat) : Instruction α := gate "x" [q] []
def t (q : Nat) : Instruction α := gate "t" [q] []
def tdg (q : Nat) : Instruction α := gate "tdg" [q] []
def rz (angle : α) (q : Nat) : Instruction α := gate "rz" [q] [angle]
def cx (control target : Nat) : Instruction α := gate "cx" [control, target] []
def cz (a b : Nat) : Instruction α := gate "cz" [a, b] []
def swap (a b : Nat) : Instruction α := gate "swap" [a, b] []
def ccx (a b target : Nat) : Instruction α := gate "ccx" [a, b, target] []
def cswap (control a b : Nat) : Instruction α := gate "cswap" [control, a, b] []
def measure (q c : Nat) : Instruction α := ⟨"measure", [q], [c], []⟩
def reset (q : Nat) : Instruction α := gate "reset" [q] []
def barrier (qubits : List Nat) : Instruction α := gate "barrier" qubits []
def delay (length : α) (q : Nat) : Instruction α := gate "delay" [q] [length]

/-- A control-flow construct, known by the qubits and classical bits it may touch. -/
def controlFlow (name : String) (qubits clbits : List Nat) : Instruction α := ⟨name, qubits, clbits, []⟩

def width (i : Instruction α) : Nat := i.qubits.length

def isMeasure (i : Instruction α) : Bool := i.name == "measure"
def isReset (i : Instruction α) : Bool := i.name == "reset"
def isBarrier (i : Instruction α) : Bool := i.name == "barrier"
def isDelay (i : Instruction α) : Bool := i.name == "delay"
def isControlFlow (i : Instruction α) : Bool := controlFlowNames.contains i.name

def isGate (i : Instruction α) : Bool :=
  !(i.isMeasure || i.isReset || i.isBarrier || i.isControlFlow || i.isDelay)

/-- The operands of a gate on two qubits. -/
def link? (i : Instruction α) : Option (Nat × Nat) :=
  match i.qubits with
  | [a, b] => if i.isGate then some (a, b) else none
  | _ => none

theorem link?_eq_some_iff {i : Instruction α} {a b : Nat} :
    i.link? = some (a, b) ↔ i.qubits = [a, b] ∧ i.isGate = true := by
  simp only [link?]
  split <;> simp_all [and_comm]

def onQubits (i : Instruction α) (qubits : List Nat) : Instruction α := { i with qubits }

end Instruction

def symmetricGates : List String := ["cz", "swap", "rzz", "rxx", "ryy"]

end CircuitStages
