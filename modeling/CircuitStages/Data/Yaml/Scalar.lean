import CircuitStages.Data.Json
import CircuitStages.Data.Yaml.Cursor

namespace CircuitStages

namespace Yaml

/-- What blanks and line ends between two words stand for. Blanks count only within a line. -/
def fold (spacing : List Char) : List Char :=
  match spacing.filter isLineEnd with
  | [] => spacing
  | ['\n'] => [' ']
  | '\n' :: more => more
  | ends => ends

/-- Whether a tab stands left of column `least` on a line that starts within the spacing. The column of the next
character is given where its line does. -/
def hasTabLeftOf (least : Nat) : Option Nat → List Char → Bool
  | _, [] => false
  | column, c :: rest =>
    if isLineEnd c then hasTabLeftOf least (some 0) rest
    else (c == '\t' && column.any (· < least)) || hasTabLeftOf least (column.map (· + 1)) rest

/-- Whether a plain scalar may start with a character that has this text behind it. -/
def startsPlain (inFlow : Bool) (c : Char) (rest : List Char) : Bool :=
  if c == '-' then !rest.head?.any isGap
  else if c == '?' || c == ':' then !inFlow && !endsToken rest
  else !(isSpacing c || isFlowMark c || ['#', '&', '*', '!', '|', '>', '\x27', '"', '%', '@', '\x60'].contains c)

/-- The next word of a plain scalar. In a flow collection a colon must not stand right before a mark. -/
def plainWord? (inFlow : Bool) : List Char → Option (List Char)
  | [] => some []
  | c :: rest =>
    if isSpacing c || (c == ':' && endsToken rest) || (inFlow && isFlowMark c) then some []
    else if inFlow && c == ':' && rest.head?.any (fun d => d == '?' || isFlowMark d) then none
    else (plainWord? inFlow rest).map (c :: ·)

/-- A plain scalar, or what is left of one. -/
structure Plain where
  text : List Char
  /-- The place after the scalar and the blanks and line ends behind it. -/
  after : Cursor
  /-- Whether the scalar is the last thing in its line. -/
  endsLine : Bool

/-- The words of a plain scalar from here on. Outside flow collections its lines are indented by at least `least`. -/
def plain? (inFlow : Bool) (least : Nat) : Nat → Cursor → Option Plain
  | 0, _ => none
  | fuel + 1, p =>
    let spacing := p.spacing
    let start := p.advance spacing.length
    let onNewLine := spacing.any isLineEnd
    let done : Plain := ⟨[], start, onNewLine⟩
    if hasTabLeftOf least none spacing then none
    else if (onNewLine && !inFlow && start.column < least) || start.atMarker || start.rest.head? == some '#' then
      some done
    else do
      let word ← plainWord? inFlow start.rest
      if word.isEmpty then some done
      else
        let more ← plain? inFlow least fuel (start.advance word.length)
        some { more with text := fold spacing ++ word ++ more.text }

def hexValue? (cs : List Char) : Option Nat :=
  cs.foldl (fun n c => do
    let n ← n
    let d ← Json.hexDigit? c
    some (16 * n + d)) (some 0)

/-- The character that an escape of fixed length stands for. -/
def simpleEscape? : Char → Option Char
  | '0' => some '\x00'
  | 'a' => some '\x07'
  | 'b' => some '\x08'
  | 't' => some '\t'
  | '\t' => some '\t'
  | 'n' => some '\n'
  | 'v' => some '\x0b'
  | 'f' => some '\x0c'
  | 'r' => some '\r'
  | 'e' => some '\x1b'
  | ' ' => some ' '
  | '"' => some '"'
  | '/' => some '/'
  | '\\' => some '\\'
  | 'N' => some '\u0085'
  | '_' => some '\u00a0'
  | 'L' => some '\u2028'
  | 'P' => some '\u2029'
  | _ => none

/-- An escape by code point: its letter says how many hexadecimal digits follow. -/
def codeEscape? (letter : Char) (cs : List Char) : Option (Char × Nat) := do
  let width ← if letter = 'x' then some 2 else if letter = 'u' then some 4 else if letter = 'U' then some 8 else none
  let digits := cs.take width
  let n ← hexValue? digits
  if digits.length = width ∧ n.isValidChar then some (Char.ofNat n, 1 + width) else none

/-- What stands behind a backslash: the text that it is for and the number of its characters. A line end is for
nothing, and so are the blanks around the empty lines after it. -/
def escape? : List Char → Option (List Char × Nat)
  | [] => none
  | c :: rest =>
    if isLineEnd c then
      let spacing := rest.takeWhile isSpacing
      some (spacing.filter isLineEnd, 1 + spacing.length)
    else
      match simpleEscape? c with
      | some d => some ([d], 1)
      | none => (codeEscape? c rest).map fun (d, length) => ([d], length)

/-- The rest of a scalar after its opening quote, and the place after its closing one. A single quote is written twice
between single quotes; between double quotes a backslash starts an escape. -/
def quotedRest (quote : Char) : Nat → Cursor → Option (List Char × Cursor)
  | 0, _ => none
  | fuel + 1, p =>
    if p.atMarker then none
    else
      match p.rest with
      | [] => none
      | c :: rest => do
        if c = quote then
          if quote = '\x27' && rest.head? = some quote then
            let (more, after) ← quotedRest quote fuel (p.advance 2)
            some (quote :: more, after)
          else some ([], p.next)
        else
          let (text, length) ←
            if isSpacing c then some (fold p.spacing, p.spacing.length)
            else if c = '\\' && quote = '"' then (escape? rest).map fun (text, length) => (text, 1 + length)
            else some ([c], 1)
          let (more, after) ← quotedRest quote fuel (p.advance length)
          some (text ++ more, after)

end Yaml

end CircuitStages
