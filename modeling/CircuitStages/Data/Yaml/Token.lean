import CircuitStages.Data.Yaml.Scalar

namespace CircuitStages

namespace Yaml

inductive Token where
  | documentStart
  | documentEnd
  | blockSequence
  | blockMapping
  /-- The end of a block collection of either kind. -/
  | blockEnd
  | flowSequence
  | flowSequenceEnd
  | flowMapping
  | flowMappingEnd
  /-- The dash before an item of a block sequence. -/
  | item
  /-- The comma between the parts of a flow collection. -/
  | comma
  | key
  | value
  /-- A scalar, which was written bare or in quotes. -/
  | scalar (text : String) (bare : Bool)
deriving DecidableEq, Repr

/-- A token that turns out to be a key if a colon follows it. The token of the key, and that of a mapping that it opens,
then go before what has been read in the meantime. -/
structure Candidate where
  /-- The number of tokens before it. -/
  place : Nat
  /-- Where it starts. -/
  start : Cursor
  /-- Whether it has to be a key, since it starts in the column of an open block collection. -/
  required : Bool

/-- Whether a colon at this place comes too late: on another line, or more than 1024 bytes behind the start of the
key. -/
def Candidate.isPast (k : Candidate) (p : Cursor) : Bool :=
  k.start.line < p.line || k.start.offset + 1024 < p.offset

/-- A text that has been read up to a place. -/
structure Scan where
  cursor : Cursor
  tokens : Array Token
  /-- The columns of the open block collections, innermost first. -/
  indents : List Nat
  /-- The candidate for a key in the innermost open flow collection, or outside all of them. -/
  candidate : Option Candidate
  /-- The candidates around the open flow collections, innermost first: one for each of them. -/
  outer : List (Option Candidate)
  /-- Whether a key may start at the next token. -/
  keyAllowed : Bool

namespace Scan

def start (text : List Char) : Scan := ⟨.start text, #[], [], none, [], true⟩

def inFlow (s : Scan) : Bool := !s.outer.isEmpty

/-- Adds a token of this length, after which a key may start or not. -/
def emit (s : Scan) (token : Token) (length : Nat) (keyAllowed : Bool) : Scan :=
  { s with cursor := s.cursor.advance length, tokens := s.tokens.push token, keyAllowed }

/-- The candidate is no key. -/
def dropCandidate (s : Scan) : Option Scan :=
  if s.candidate.any (·.required) then none else some { s with candidate := none }

/-- The next token is a candidate if a key may start here. -/
def propose (s : Scan) : Option Scan :=
  if s.keyAllowed then do
    let s ← s.dropCandidate
    let required := !s.inFlow && s.indents.head? == some s.cursor.column
    some { s with candidate := some ⟨s.tokens.size, s.cursor, required⟩ }
  else some s

/-- Candidates that can no longer be keys are none. -/
def dropPast (s : Scan) : Option Scan :=
  let isPast (k : Candidate) : Bool := k.isPast s.cursor
  if (s.candidate :: s.outer).any fun candidate => candidate.any fun k => k.required && isPast k then none
  else
    let live (candidate : Option Candidate) := candidate.filter (!isPast ·)
    some { s with candidate := live s.candidate, outer := s.outer.map live }

/-- Opens a block collection in this column unless one is open that is as deep; its token goes to `place`. -/
def openBlock (s : Scan) (token : Token) (column place : Nat) : Scan :=
  if s.inFlow || s.indents.head?.any (column ≤ ·) then s
  else { s with indents := column :: s.indents, tokens := s.tokens.insertIdxIfInBounds place token }

/-- Closes the innermost block collections, as far as their columns are meant. -/
def closeBlocks (s : Scan) (column : Nat → Bool) : Scan :=
  if s.inFlow then s
  else
    let closed := s.indents.takeWhile column
    { s with
      indents := s.indents.dropWhile column,
      tokens := s.tokens ++ Array.replicate closed.length Token.blockEnd }

def closeAllBlocks (s : Scan) : Scan := s.closeBlocks fun _ => true

def marker (s : Scan) (token : Token) : Option Scan := do
  let s ← s.closeAllBlocks.dropCandidate
  some (s.emit token 3 false)

def openFlow (s : Scan) (token : Token) : Option Scan := do
  let s ← s.propose
  some ({ s with candidate := none, outer := s.candidate :: s.outer }.emit token 1 true)

def closeFlow (s : Scan) (token : Token) : Option Scan := do
  let s ← s.dropCandidate
  match s.outer with
  | [] => some (s.emit token 1 false)
  | candidate :: outer => some ({ s with candidate, outer }.emit token 1 false)

def comma (s : Scan) : Option Scan := do
  let s ← s.dropCandidate
  some (s.emit .comma 1 true)

/-- Opens a block collection at the start of its content, where a key may start. -/
def openBlockHere (s : Scan) (token : Token) : Option Scan :=
  if s.inFlow || s.keyAllowed then some (s.openBlock token s.cursor.column s.tokens.size) else none

def item (s : Scan) : Option Scan := do
  let s ← (← s.openBlockHere .blockSequence).dropCandidate
  some (s.emit .item 1 true)

/-- A question mark before a key. -/
def key (s : Scan) : Option Scan := do
  let s ← (← s.openBlockHere .blockMapping).dropCandidate
  some (s.emit .key 1 !s.inFlow)

/-- A colon. It makes the candidate a key, which may open a mapping. -/
def value (s : Scan) : Option Scan :=
  match s.candidate with
  | some k =>
    let s := { s with candidate := none, tokens := s.tokens.insertIdxIfInBounds k.place .key }
    some ((s.openBlock .blockMapping k.start.column k.place).emit .value 1 false)
  | none => do
    let s ← s.openBlockHere .blockMapping
    some (s.emit .value 1 !s.inFlow)

def quoted (s : Scan) (quote : Char) (fuel : Nat) : Option Scan := do
  let s ← s.propose
  let (text, after) ← quotedRest quote fuel s.cursor.next
  some { s.emit (.scalar (String.ofList text) false) 0 false with cursor := after }

/-- A plain scalar. Its further lines are indented more deeply than the innermost block collection. -/
def plain (s : Scan) (fuel : Nat) : Option Scan := do
  let s ← s.propose
  let scalar ← plain? s.inFlow (s.indents.head?.elim 0 (· + 1)) fuel s.cursor
  some { s.emit (.scalar (String.ofList scalar.text) true) 0 scalar.endsLine with cursor := scalar.after }

/-- Reads the token that starts with a character here. The text is shorter than `fuel`. -/
def token (s : Scan) (fuel : Nat) (c : Char) (rest : List Char) : Option Scan :=
  let isMark := s.inFlow || endsToken rest
  if s.cursor.atMarker then s.marker (if c == '-' then .documentStart else .documentEnd)
  else if c == '[' then s.openFlow .flowSequence
  else if c == ']' then s.closeFlow .flowSequenceEnd
  else if c == '\x7b' then s.openFlow .flowMapping
  else if c == '\x7d' then s.closeFlow .flowMappingEnd
  else if c == ',' then s.comma
  else if c == '-' && endsToken rest then s.item
  else if c == '?' && isMark then s.key
  else if c == ':' && isMark then s.value
  else if c == '"' || c == '\x27' then s.quoted c fuel
  else if startsPlain s.inFlow c rest then s.plain fuel
  else none

/-- Reads all tokens from here on. The text is shorter than the fuel, since every token takes up some of it. -/
def finish : Nat → Scan → Option (List Token)
  | 0, _ => none
  | fuel + 1, s => do
    let (cursor, keyAllowed) := s.cursor.toToken s.inFlow s.keyAllowed fuel
    let s ← { s with cursor, keyAllowed }.dropPast
    let s := s.closeBlocks (cursor.column < ·)
    match cursor.rest with
    | [] => do
      let s ← s.closeAllBlocks.dropCandidate
      some s.tokens.toList
    | c :: rest => do
      let s ← s.token (fuel + 1) c rest
      s.finish fuel

end Scan

def tokens? (text : String) : Option (List Token) :=
  let cs := text.toList
  if cs.all isAllowed then (Scan.start (unifyLines cs)).finish (cs.length + 1) else none

end Yaml

end CircuitStages
