import CircuitStages.Circuit.Basic
import CircuitStages.Data.Node
import CircuitStages.Device.Target

namespace CircuitStages

variable {α : Type}

/-- Settings for synthesis. The reductions here are exact, so the settings only travel along. -/
structure SynthesisSettings where
  approximationDegree : Option Float
  method : String
  pluginConfig : Value
  highLevelConfig : Value

/-- A controlled controlled `x` as six `cx` and gates on one qubit. -/
def toffoli (a b c : Nat) : List (Instruction α) :=
  [.h c, .cx b c, .tdg c, .cx a c, .t c, .cx b c, .tdg c, .cx a c, .t b, .t c, .h c, .cx a b, .t a, .tdg b, .cx a b]

/-- The gates on one and two qubits that make up a gate on three. -/
def decomposition? (i : Instruction α) : Option (List (Instruction α)) :=
  match i.qubits with
  | [a, b, c] =>
    if i.name = "ccx" then some (toffoli a b c)
    else if i.name = "ccz" then some ([.h c] ++ toffoli a b c ++ [.h c])
    else if i.name = "cswap" then some ([.cx c b] ++ toffoli a b c ++ [.cx c b])
    else none
  | _ => none

/-- Whether the device has an operation natively: the target decides, or the basis where there is no target. -/
def isNative {τ : Type} (target : Option (Target τ)) (basis : Option BasisGates) (name : String) : Bool :=
  match target, basis with
  | some t, _ => t.hasOperation name
  | none, some b => b.contains name
  | none, none => false

/-- An instruction in gates on at most two qubits, or as it is where it may stay. -/
def reduceOne (native : String → Bool) (i : Instruction α) : Except CircuitError (List (Instruction α)) :=
  if i.width < 3 || i.isBarrier || i.isControlFlow || native i.name then .ok [i]
  else
    match decomposition? i with
    | some gates => .ok gates
    | none => .error (.noDecomposition i.name i.width)

def reduceWide (native : String → Bool) (is : List (Instruction α)) : Except CircuitError (List (Instruction α)) :=
  List.flatten <$> is.mapM (reduceOne native)

/-- Whether the device has a gate on a pair in this order: the target decides, or the coupling map where there is no
target. -/
def hasDirection {τ : Type} (target : Option (Target τ)) (map : Option CouplingMap) (name : String)
    (a b : Nat) : Bool :=
  match target, map with
  | some t, _ => t.supports name [a, b]
  | none, some m => m.hasEdge a b
  | none, none => true

/-- A `cx` from `a` to `b` by way of one from `b` to `a`. -/
def turnedCx (a b : Nat) : List (Instruction α) := [.h a, .h b, .cx b a, .h a, .h b]

/-- An instruction in a direction that the device has. -/
def directOne (supported : String → Nat → Nat → Bool) (i : Instruction α) :
    Except CircuitError (List (Instruction α)) :=
  match i.link? with
  | none => .ok [i]
  | some (a, b) =>
    if supported i.name a b then .ok [i]
    else if supported i.name b a && i.name == "cx" then .ok (turnedCx a b)
    else if supported i.name b a && symmetricGates.contains i.name then .ok [i.onQubits [b, a]]
    else .error (.unsupportedDirection i.name a b)

def directGates (supported : String → Nat → Nat → Bool) (is : List (Instruction α)) :
    Except CircuitError (List (Instruction α)) :=
  List.flatten <$> is.mapM (directOne supported)

end CircuitStages
