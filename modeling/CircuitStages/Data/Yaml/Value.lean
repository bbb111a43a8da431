import CircuitStages.Data.Json

namespace CircuitStages

namespace Yaml

/-- Digits in the given base, at least one. -/
def digits? (base : Nat) (cs : List Char) : Option Nat :=
  if cs.isEmpty then none
  else cs.foldl (fun n c => do
    let n ← n
    let d ← Json.hexDigit? c
    if d < base then some (base * n + d) else none) (some 0)

/-- A zero with more digits after it is text, not a number. -/
def isPaddedNumber (cs : List Char) : Bool := 1 < cs.length && cs.head? == some '0' && cs.all Char.isDigit

/-- A whole number after its sign, in base ten or with the mark of another base. -/
def magnitude? (cs : List Char) : Option Nat :=
  match cs with
  | '0' :: 'x' :: rest => digits? 16 rest
  | '0' :: 'o' :: rest => digits? 8 rest
  | '0' :: 'b' :: rest => digits? 2 rest
  | cs => if isPaddedNumber cs then none else digits? 10 cs

/-- The value that a plain scalar stands for where any value may stand. Whole numbers beyond 128 bits are floating
point. -/
def resolve (text : String) : Value :=
  if ["", "~", "null", "Null", "NULL"].contains text then .null
  else if ["true", "True", "TRUE"].contains text then .bool true
  else if ["false", "False", "FALSE"].contains text then .bool false
  else
    let (negative, cs) := Numeral.splitSign text.toList
    match (magnitude? cs).filter fun n => if negative then n ≤ Nat.pow 2 127 else n < Nat.pow 2 128 with
    | some n => .int (if negative then -(n : Int) else n)
    | none =>
      match if isPaddedNumber cs then none else Numeral.read? text with
      | some x => .float x
      | none => .string text

def plainNode (text : String) : Node := .scalar (resolve text) (some text)

def nullNode : Node := plainNode ""

end Yaml

end CircuitStages
