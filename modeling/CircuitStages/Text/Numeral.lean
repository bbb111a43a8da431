import CircuitStages.Text.Decimal

namespace CircuitStages

namespace Numeral

def digitsValue (cs : List Char) : Nat := cs.foldl (fun n c => 10 * n + (c.toNat - 48)) 0

/-- Whether a number is below zero by its sign, and the characters after the sign. -/
def splitSign (cs : List Char) : Bool × List Char :=
  match cs with
  | '-' :: rest => (true, rest)
  | '+' :: rest => (false, rest)
  | cs => (false, cs)

/-- The exponent after a number's digits, if one is written there. -/
def exponentPart (cs : List Char) : Option (Option Int × List Char) :=
  match cs with
  | e :: rest =>
    if e = 'e' ∨ e = 'E' then
      let (negative, rest) := splitSign rest
      let digits := rest.takeWhile Char.isDigit
      if digits.isEmpty then none
      else
        let n : Int := digitsValue digits
        some (some (if negative then -n else n), rest.dropWhile Char.isDigit)
    else some (none, cs)
  | [] => some (none, cs)

/-- The number with these digits before and after the point and this exponent, if it is finite. -/
def finite? (whole fraction : List Char) (exponent : Option Int) : Option Float :=
  let x := (Decimal.mk (digitsValue (whole ++ fraction)) (exponent.getD 0 - fraction.length)).toFloat
  if x.isFinite then some x else none

/-- A number without sign: digits with perhaps a point among, before or after them, and perhaps an exponent. -/
def unsigned? (cs : List Char) : Option Float := do
  let whole := cs.takeWhile Char.isDigit
  let rest := cs.dropWhile Char.isDigit
  let (fraction, rest) :=
    match rest with
    | '.' :: after => (after.takeWhile Char.isDigit, after.dropWhile Char.isDigit)
    | rest => ([], rest)
  let (exponent, rest) ← exponentPart rest
  if (whole ++ fraction).isEmpty || !rest.isEmpty then none else finite? whole fraction exponent

/-- A number with or without sign; words with a point in front stand for what is not finite. -/
def read? (text : String) : Option Float :=
  if [".inf", ".Inf", ".INF", "+.inf", "+.Inf", "+.INF"].contains text then some (1.0 / 0.0)
  else if ["-.inf", "-.Inf", "-.INF"].contains text then some (-1.0 / 0.0)
  else if [".nan", ".NaN", ".NAN"].contains text then some (0.0 / 0.0)
  else
    let (negative, cs) := splitSign text.toList
    (unsigned? cs).map fun x => if negative then -x else x

end Numeral

end CircuitStages
