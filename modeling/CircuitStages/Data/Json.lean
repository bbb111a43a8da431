import CircuitStages.Data.Node

namespace CircuitStages

/-- How floating point numbers are written, and which number a text with a point or an exponent stands for. Nothing says
that the two undo each other: a reader may settle for a number close by. -/
structure NumberText where
  write : Float → String
  /-- The number with these digits before and after the point and this exponent, if it is finite. -/
  eval? (whole fraction : List Char) (exponent : Option Int) : Option Float

/-- Shortest digits, read to the nearest number. -/
def NumberText.exact : NumberText := ⟨DecimalStyle.dataText.write, Numeral.finite?⟩

namespace Json

variable (numbers : NumberText)

def isSpace (c : Char) : Bool := c == ' ' || c == '\t' || c == '\n' || c == '\r'

def skipBlanks (cs : List Char) : List Char := cs.dropWhile isSpace

def hexDigit? (c : Char) : Option Nat :=
  let n := c.toNat
  if 48 ≤ n ∧ n ≤ 57 then some (n - 48)
  else if 65 ≤ n ∧ n ≤ 70 then some (n - 55)
  else if 97 ≤ n ∧ n ≤ 102 then some (n - 87)
  else none

/-- Four hexadecimal digits: one unit of UTF-16. -/
def unit? (a b c d : Char) : Option Nat := do
  let a ← hexDigit? a
  let b ← hexDigit? b
  let c ← hexDigit? c
  let d ← hexDigit? d
  some (((a * 16 + b) * 16 + c) * 16 + d)

def isSurrogate (unit : Nat) : Bool := 0xd800 ≤ unit && unit < 0xe000

/-- The characters that units of UTF-16 stand for: a high and a low surrogate make up one, and no other surrogates are
allowed. A character may also stand for itself. -/
def charsOfUnits? : List Nat → Option (List Char)
  | [] => some []
  | [unit] => if isSurrogate unit then none else some [Char.ofNat unit]
  | unit :: next :: rest =>
    if !isSurrogate unit then (charsOfUnits? (next :: rest)).map (Char.ofNat unit :: ·)
    else if unit < 0xdc00 && 0xdc00 ≤ next && next < 0xe000 then
      (charsOfUnits? rest).map (Char.ofNat (0x10000 + (unit - 0xd800) * 0x400 + (next - 0xdc00)) :: ·)
    else none

def simpleEscape? : Char → Option Char
  | '"' => some '"'
  | '\\' => some '\\'
  | '/' => some '/'
  | 'b' => some '\x08'
  | 'f' => some '\x0c'
  | 'n' => some '\n'
  | 'r' => some '\r'
  | 't' => some '\t'
  | _ => none

/-- The rest of a string after its opening quote; `read` holds its units so far, last one first. -/
def stringRest (read : List Nat) : List Char → Option (List Nat × List Char)
  | [] => none
  | '"' :: rest => some (read.reverse, rest)
  | '\\' :: 'u' :: a :: b :: c :: d :: rest => do
    let unit ← unit? a b c d
    stringRest (unit :: read) rest
  | '\\' :: e :: rest => do
    let c ← simpleEscape? e
    stringRest (c.toNat :: read) rest
  | c :: rest => if c.toNat < 0x20 then none else stringRest (c.toNat :: read) rest

/-- A string after its opening quote; its text is missing where its units stand for no characters. -/
def string (cs : List Char) : Option (Option String × List Char) := do
  let (units, rest) ← stringRest [] cs
  some ((charsOfUnits? units).map String.ofList, rest)

/-- A number without point and exponent is a whole number if it fits 64 bits, unsigned or signed; all other numbers,
and `-0`, are floating point. Numbers too large for that have no value. -/
def numberValue? (negative : Bool) (whole : List Char) (fraction : List Char) (exponent : Option Int) : Option Value :=
  let n := Numeral.digitsValue whole
  if fraction.isEmpty && exponent.isNone && (if negative then 0 < n && n ≤ Nat.pow 2 63 else n < Nat.pow 2 64) then
    some (.int (if negative then -(n : Int) else n))
  else (numbers.eval? whole fraction exponent).map fun x => .float (if negative then -x else x)

/-- The digits after a point, if one is written there. -/
def fractionPart (cs : List Char) : Option (List Char) × List Char :=
  match cs with
  | '.' :: rest => (some (rest.takeWhile Char.isDigit), rest.dropWhile Char.isDigit)
  | cs => (none, cs)

/-- A number after its sign. -/
def unsigned (negative : Bool) (cs : List Char) : Option (Option Value × List Char) :=
  let whole := cs.takeWhile Char.isDigit
  if whole.isEmpty || (1 < whole.length && whole.head? = some '0') then none
  else
    let (fraction, rest) := fractionPart (cs.dropWhile Char.isDigit)
    if fraction = some [] then none
    else do
      let (exponent, rest) ← Numeral.exponentPart rest
      some (numberValue? numbers negative whole (fraction.getD []) exponent, rest)

def number (cs : List Char) : Option (Option Value × List Char) :=
  match cs with
  | '-' :: rest => unsigned numbers true rest
  | cs => unsigned numbers false cs

/-- Arrays and objects are read up to this many levels. -/
def maxDepth : Nat := 127

mutual

/-- A value at the beginning of a text and what follows it, or nothing if the text is no JSON. Numbers beyond floating
point, strings that are no text and collections nested too deeply are JSON, but cannot be read as data. -/
def value : Nat → Nat → List Char → Option (Node × List Char)
  | 0, _, _ => none
  | fuel + 1, depth, cs =>
    match skipBlanks cs with
    | '"' :: rest => do
      let (s, rest) ← string rest
      some (s.elim .unreadable fun s => .scalar (.string s) none, rest)
    | '[' :: rest =>
      match skipBlanks rest with
      | ']' :: rest => some ((Node.sequence []).within depth, rest)
      | rest => do
        let (items, rest) ← items fuel (depth - 1) rest
        some ((Node.sequence items).within depth, rest)
    | '\x7b' :: rest =>
      match skipBlanks rest with
      | '\x7d' :: rest => some ((Node.mapping []).within depth, rest)
      | rest => do
        let (entries, rest) ← entries fuel (depth - 1) rest
        some ((Node.ofEntries entries).within depth, rest)
    | 'n' :: 'u' :: 'l' :: 'l' :: rest => some (.scalar .null none, rest)
    | 't' :: 'r' :: 'u' :: 'e' :: rest => some (.scalar (.bool true) none, rest)
    | 'f' :: 'a' :: 'l' :: 's' :: 'e' :: rest => some (.scalar (.bool false) none, rest)
    | cs => do
      let (v, rest) ← number numbers cs
      some (v.elim .unreadable fun v => .scalar v none, rest)

def items : Nat → Nat → List Char → Option (List Node × List Char)
  | 0, _, _ => none
  | fuel + 1, depth, cs => do
    let (item, rest) ← value fuel depth cs
    match skipBlanks rest with
    | ']' :: rest => some ([item], rest)
    | ',' :: rest => do
      let (more, rest) ← items fuel depth rest
      some (item :: more, rest)
    | _ => none

def entries : Nat → Nat → List Char → Option (List (Option String × Node) × List Char)
  | 0, _, _ => none
  | fuel + 1, depth, cs =>
    match skipBlanks cs with
    | '"' :: rest => do
      let (name, rest) ← string rest
      match skipBlanks rest with
      | ':' :: rest => do
        let (item, rest) ← value fuel depth rest
        match skipBlanks rest with
        | '\x7d' :: rest => some ([(name, item)], rest)
        | ',' :: rest => do
          let (more, rest) ← entries fuel depth rest
          some ((name, item) :: more, rest)
        | _ => none
      | _ => none
    | _ => none

end

def read (text : String) : Decoded Node :=
  let cs := text.toList
  match value numbers (cs.length + 1) maxDepth cs with
  | some (node, rest) => if (skipBlanks rest).isEmpty then .ok node else .error .malformed
  | none => .error .malformed

/-- A character inside a string: a quote, a backslash and control characters are written with a backslash. -/
def escape (c : Char) : List Char :=
  match c with
  | '"' => ['\\', '"']
  | '\\' => ['\\', '\\']
  | '\x08' => ['\\', 'b']
  | '\x0c' => ['\\', 'f']
  | '\n' => ['\\', 'n']
  | '\r' => ['\\', 'r']
  | '\t' => ['\\', 't']
  | c =>
    if c.toNat < 0x20 then ['\\', 'u', '0', '0', Nat.digitChar (c.toNat / 16), Nat.digitChar (c.toNat % 16)] else [c]

def stringText (s : String) : List Char := '"' :: s.toList.flatMap escape ++ ['"']

def intText (n : Int) : List Char := (if n < 0 then ['-'] else []) ++ Nat.toDigits 10 n.natAbs

mutual

/-- The text of plain data, without blanks. -/
def valueText : Value → List Char
  | .null => ['n', 'u', 'l', 'l']
  | .bool true => ['t', 'r', 'u', 'e']
  | .bool false => ['f', 'a', 'l', 's', 'e']
  | .int n => intText n
  | .float x => (numbers.write x).toList
  | .string s => stringText s
  | .array items => '[' :: [','].intercalate (itemTexts items) ++ [']']
  | .object fields => '\x7b' :: [','].intercalate (fieldTexts fields) ++ ['\x7d']

def itemTexts : List Value → List (List Char)
  | [] => []
  | item :: rest => valueText item :: itemTexts rest

def fieldTexts : List (String × Value) → List (List Char)
  | [] => []
  | (name, item) :: rest => (stringText name ++ ':' :: valueText item) :: fieldTexts rest

end

def write (v : Value) : String := String.ofList (valueText numbers v)

end Json

end CircuitStages
