namespace CircuitStages

/-- The positive number `digits * 10 ^ exponent`. -/
structure Decimal where
  digits : Nat
  exponent : Int
deriving DecidableEq, Repr

/-- How a decimal is laid out. -/
structure DecimalStyle where
  /-- Whether a number whose first digit has this power of ten is written without an exponent. -/
  positional : Int → Bool
  /-- Whether a whole number ends in `.0`. -/
  pointed : Bool
  /-- Whether a value halfway between two candidates takes the larger one, rather than the even one. -/
  tiesUp : Bool
  /-- Whether an exponent that is not negative has a plus sign. -/
  signed : Bool

namespace DecimalStyle

/-- Positional at every size, whole numbers without a point. -/
def plain : DecimalStyle := ⟨fun _ => true, false, true, false⟩

/-- Positional from `0.0001` to below `1e16`, with a point in every positional number. -/
def pointedText : DecimalStyle := ⟨fun e => -4 ≤ e && e < 16, true, true, false⟩

/-- Positional from `0.00001` to below `1e+16`, with a point in every positional number. -/
def dataText : DecimalStyle := ⟨fun e => -5 ≤ e && e < 16, true, false, true⟩

end DecimalStyle

/-- The numbers that round to a floating point value, as multiples of one unit: all between `low` and `high`, the value
itself at `mid`. -/
structure RoundingRange where
  low : Nat
  mid : Nat
  high : Nat
  /-- Whether the ends round to the value too. -/
  closed : Bool
  /-- The unit is this power of two. -/
  unit : Int

/-- The rounding range of the positive value with these bits: its ends are halfway to its two neighbours. -/
def RoundingRange.ofBits (bits : Nat) : RoundingRange :=
  let fraction := bits % Nat.pow 2 52
  let scale : Nat := bits / Nat.pow 2 52 % Nat.pow 2 11
  let mantissa := if scale = 0 then fraction else Nat.pow 2 52 + fraction
  let exponent : Int := if scale = 0 then -1074 else (scale : Int) - 1075
  let below := if fraction = 0 ∧ 1 < scale then 1 else 2
  ⟨4 * mantissa - below, 4 * mantissa, 4 * mantissa + 2, mantissa % 2 = 0, exponent - 2⟩

/-- The multiple of `10 ^ exponent` in the range that is nearest to the value, if there is one. -/
def RoundingRange.onGrid? (r : RoundingRange) (tiesUp : Bool) (exponent : Int) : Option Nat :=
  let num := Nat.pow 2 r.unit.toNat * Nat.pow 10 (-exponent).toNat
  let den := Nat.pow 2 (-r.unit).toNat * Nat.pow 10 exponent.toNat
  let value := r.mid * num
  let lower := value / den
  let upper := lower + 1
  let inside (c : Nat) : Bool :=
    if r.closed then r.low * num ≤ c * den && c * den ≤ r.high * num
    else r.low * num < c * den && c * den < r.high * num
  let down := value - lower * den
  let up := upper * den - value
  if inside lower && (!inside upper || down < up || (down = up && !tiesUp && lower % 2 = 0)) then some lower
  else if inside upper then some upper
  else none

def digitCount (n : Nat) : Nat := (Nat.toDigits 10 n).length

/-- The place just left of the first digit of the value: it lies below this power of ten and not below a tenth of it. -/
def RoundingRange.magnitude (r : RoundingRange) : Int :=
  let shift : Nat := 400
  (digitCount (r.mid * Nat.pow 2 r.unit.toNat * Nat.pow 10 shift / Nat.pow 2 (-r.unit).toNat) : Int) - shift

/-- Moves trailing zeros of the digits into the exponent. -/
def Decimal.trim : Nat → Decimal → Decimal
  | 0, d => d
  | fuel + 1, d => if d.digits % 10 = 0 then trim fuel ⟨d.digits / 10, d.exponent + 1⟩ else d

/-- The shortest decimal that rounds to the positive value with these bits; seventeen digits always suffice. -/
def Decimal.shortest (tiesUp : Bool) (bits : Nat) : Decimal :=
  let range := RoundingRange.ofBits bits
  let grids := (List.range 17).map fun (n : Nat) => range.magnitude - (n : Int) - 1
  let hit := grids.findSome? fun exponent => (range.onGrid? tiesUp exponent).map (Decimal.mk · exponent)
  (hit.getD ⟨range.mid, range.unit⟩).trim 20

def Decimal.layOut (style : DecimalStyle) (d : Decimal) : String :=
  let digits := (Nat.toDigits 10 d.digits)
  let point : Int := digits.length + d.exponent
  let zeros (n : Int) : List Char := List.replicate n.toNat '0'
  let text :=
    if !style.positional (point - 1) then
      let whole := digits.take 1
      let rest := digits.drop 1
      let sign := if style.signed && 0 < point then ['+'] else []
      whole ++ (if rest.isEmpty then [] else '.' :: rest) ++ 'e' :: sign ++ (toString (point - 1)).toList
    else if 0 ≤ d.exponent then
      digits ++ zeros d.exponent ++ (if style.pointed then ['.', '0'] else [])
    else if 0 < point then
      digits.take point.toNat ++ '.' :: digits.drop point.toNat
    else
      '0' :: '.' :: zeros (-point) ++ digits
  String.ofList text

def DecimalStyle.write (style : DecimalStyle) (x : Float) : String :=
  let bits := x.toBits.toNat
  let sign := if Nat.pow 2 63 ≤ bits then "-" else ""
  let size := bits % Nat.pow 2 63
  if x.isNaN then "NaN"
  else if x.isInf then sign ++ "inf"
  else if size = 0 then sign ++ (if style.pointed then "0.0" else "0")
  else sign ++ (Decimal.shortest style.tiesUp size).layOut style

/-- The floating point number nearest to a decimal. Exponents far outside the range of floating point are not spelled
out. -/
def Decimal.toFloat (d : Decimal) : Float :=
  let magnitude : Int := digitCount d.digits + d.exponent
  if d.digits = 0 || magnitude < -400 then 0.0
  else if 400 < magnitude then 1.0 / 0.0
  else Float.ofScientific d.digits (d.exponent < 0) d.exponent.natAbs

end CircuitStages
