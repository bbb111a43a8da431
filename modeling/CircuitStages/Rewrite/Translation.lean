import CircuitStages.Circuit.Basic

namespace CircuitStages

variable {α : Type}

/-- An angle in a rule: built from half a turn and the parameters of the gate that is replaced. -/
inductive AngleTerm where
  | zero
  | pi
  | param (index : Nat)
  | half (a : AngleTerm)
  | neg (a : AngleTerm)
deriving DecidableEq, Repr

def AngleTerm.eval [Angle α] (params : List α) : AngleTerm → α
  | zero => 0
  | pi => Angle.pi
  | param index => params.getD index 0
  | half a => Angle.half (a.eval params)
  | neg a => -(a.eval params)

/-- A gate in a rule: its operands are given by their places among the operands of the gate that is replaced. -/
structure RuleStep where
  name : String
  wires : List Nat
  angles : List AngleTerm
deriving DecidableEq, Repr

/-- A gate of this name, width and number of parameters equals a sequence of others. -/
structure Rule where
  source : String
  width : Nat
  numParams : Nat
  steps : List RuleStep
deriving DecidableEq, Repr

namespace Rule

def uses (r : Rule) : List String := r.steps.map (·.name)

/-- Whether a rule is about gates of this form. -/
def appliesTo (r : Rule) (i : Instruction α) : Bool :=
  r.source == i.name && r.width == i.width && r.numParams == i.params.length

def expand [Angle α] (r : Rule) (i : Instruction α) : List (Instruction α) :=
  r.steps.map fun s => .gate s.name (s.wires.map fun w => i.qubits.getD w 0) (s.angles.map (·.eval i.params))

end Rule

namespace AngleTerm

def quarter : AngleTerm := .half .pi
def eighth : AngleTerm := .half (.half .pi)

end AngleTerm

open AngleTerm in
/-- The rules, in the order in which they are tried. -/
def rules : List Rule := [
  -- Fixed gates on one qubit.
  ⟨"id", 1, 0, []⟩,
  ⟨"h", 1, 0, [⟨"rz", [0], [quarter]⟩, ⟨"sx", [0], []⟩, ⟨"rz", [0], [quarter]⟩]⟩,
  ⟨"h", 1, 0, [⟨"ry", [0], [quarter]⟩, ⟨"x", [0], []⟩]⟩,
  ⟨"h", 1, 0, [⟨"u", [0], [quarter, zero, pi]⟩]⟩,
  ⟨"x", 1, 0, [⟨"sx", [0], []⟩, ⟨"sx", [0], []⟩]⟩,
  ⟨"x", 1, 0, [⟨"rx", [0], [pi]⟩]⟩,
  ⟨"y", 1, 0, [⟨"ry", [0], [pi]⟩]⟩,
  ⟨"y", 1, 0, [⟨"rz", [0], [pi]⟩, ⟨"x", [0], []⟩]⟩,
  ⟨"z", 1, 0, [⟨"rz", [0], [pi]⟩]⟩,
  ⟨"s", 1, 0, [⟨"rz", [0], [quarter]⟩]⟩,
  ⟨"sdg", 1, 0, [⟨"rz", [0], [neg quarter]⟩]⟩,
  ⟨"t", 1, 0, [⟨"rz", [0], [eighth]⟩]⟩,
  ⟨"tdg", 1, 0, [⟨"rz", [0], [neg eighth]⟩]⟩,
  ⟨"sx", 1, 0, [⟨"rx", [0], [quarter]⟩]⟩,
  ⟨"sxdg", 1, 0, [⟨"rx", [0], [neg quarter]⟩]⟩,
  -- Rotations.
  ⟨"rx", 1, 1, [⟨"h", [0], []⟩, ⟨"rz", [0], [param 0]⟩, ⟨"h", [0], []⟩]⟩,
  ⟨"rx", 1, 1, [⟨"prx", [0], [param 0, zero]⟩]⟩,
  ⟨"ry", 1, 1, [⟨"sdg", [0], []⟩, ⟨"rx", [0], [param 0]⟩, ⟨"s", [0], []⟩]⟩,
  ⟨"ry", 1, 1, [⟨"prx", [0], [param 0, quarter]⟩]⟩,
  ⟨"rz", 1, 1, [⟨"p", [0], [param 0]⟩]⟩,
  ⟨"rz", 1, 1, [⟨"rx", [0], [neg quarter]⟩, ⟨"ry", [0], [param 0]⟩, ⟨"rx", [0], [quarter]⟩]⟩,
  ⟨"p", 1, 1, [⟨"rz", [0], [param 0]⟩]⟩,
  ⟨"u", 1, 3, [⟨"rz", [0], [param 2]⟩, ⟨"ry", [0], [param 0]⟩, ⟨"rz", [0], [param 1]⟩]⟩,
  ⟨"prx", 1, 2, [⟨"rz", [0], [neg (param 1)]⟩, ⟨"rx", [0], [param 0]⟩, ⟨"rz", [0], [param 1]⟩]⟩,
  -- Gates on two qubits.
  ⟨"cx", 2, 0, [⟨"h", [1], []⟩, ⟨"cz", [0, 1], []⟩, ⟨"h", [1], []⟩]⟩,
  ⟨"cz", 2, 0, [⟨"h", [1], []⟩, ⟨"cx", [0, 1], []⟩, ⟨"h", [1], []⟩]⟩,
  ⟨"cy", 2, 0, [⟨"sdg", [1], []⟩, ⟨"cx", [0, 1], []⟩, ⟨"s", [1], []⟩]⟩,
  ⟨"swap", 2, 0, [⟨"cx", [0, 1], []⟩, ⟨"cx", [1, 0], []⟩, ⟨"cx", [0, 1], []⟩]⟩,
  ⟨"rzz", 2, 1, [⟨"cx", [0, 1], []⟩, ⟨"rz", [1], [param 0]⟩, ⟨"cx", [0, 1], []⟩]⟩,
  ⟨"cp", 2, 1, [⟨"p", [0], [half (param 0)]⟩, ⟨"cx", [0, 1], []⟩, ⟨"p", [1], [half (neg (param 0))]⟩,
    ⟨"cx", [0, 1], []⟩, ⟨"p", [1], [half (param 0)]⟩]⟩,
  ⟨"crz", 2, 1, [⟨"rz", [1], [half (param 0)]⟩, ⟨"cx", [0, 1], []⟩, ⟨"rz", [1], [half (neg (param 0))]⟩,
    ⟨"cx", [0, 1], []⟩]⟩]

/-- The levels of the gates found expressible so far. -/
abbrev Levels := List (String × Nat)

/-- The level of a gate: zero in the basis, else the round in which it was found. -/
def level? (basis : List String) (levels : Levels) (name : String) : Option Nat :=
  if basis.contains name then some 0 else levels.lookup name

def isExpressible (basis : List String) (levels : Levels) (name : String) : Bool := (level? basis levels name).isSome

/-- The gates that one more application of a rule makes expressible. -/
def newlyExpressible (basis : List String) (levels : Levels) : List String :=
  (rules.filter fun r => !isExpressible basis levels r.source && r.uses.all (isExpressible basis levels)).map (·.source)

/-- Searches round by round until nothing new is found. Each round finds the source of some rule, so as many rounds as
there are rules suffice. -/
def searchLevels (basis : List String) : Nat → Nat → Levels → Levels
  | 0, _, levels => levels
  | fuel + 1, round, levels =>
    let found := newlyExpressible basis levels
    if found.isEmpty then levels
    else searchLevels basis fuel (round + 1) (levels ++ found.map fun name => (name, round))

def gateLevels (basis : List String) : Levels := searchLevels basis rules.length 1 []

/-- The first rule for an instruction that leads to lower levels only. -/
def ruleFor? (basis : List String) (levels : Levels) (own : Nat) (i : Instruction α) : Option Rule :=
  rules.find? fun r => r.appliesTo i && r.uses.all fun name => (level? basis levels name).any (· < own)

/-- Writes an instruction in the basis. Every rule used lowers the level, so the bound on the number of nested rules is
met by the level itself. -/
def expandGate [Angle α] (basis : List String) (levels : Levels) :
    Nat → Instruction α → Except CircuitError (List (Instruction α))
  | bound, i =>
    if !i.isGate || basis.contains i.name then .ok [i]
    else
      match level? basis levels i.name, bound with
      | some own, bound + 1 =>
        match ruleFor? basis levels own i with
        | some rule => List.flatten <$> (rule.expand i).mapM (expandGate basis levels bound)
        | none => .error (.notInBasis i.name)
      | _, _ => .error (.notInBasis i.name)

/-- Writes all gates in the basis and leaves everything else as it is. -/
def translateGates [Angle α] (basis : List String) (is : List (Instruction α)) :
    Except CircuitError (List (Instruction α)) :=
  let levels := gateLevels basis
  List.flatten <$> is.mapM fun i => expandGate basis levels ((level? basis levels i.name).getD 0) i

end CircuitStages
