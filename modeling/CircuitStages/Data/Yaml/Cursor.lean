namespace CircuitStages

namespace Yaml

/-- The first and last code point of each run of characters that a text may hold: most control characters are
excluded. -/
def allowedRanges : List (Nat × Nat) :=
  [(0x9, 0xa), (0xd, 0xd), (0x20, 0x7e), (0x85, 0x85), (0xa0, 0xd7ff), (0xe000, 0xfffd), (0x10000, 0x10ffff)]

def isAllowed (c : Char) : Bool := allowedRanges.any fun r => r.1 ≤ c.toNat && c.toNat ≤ r.2

def isGap (c : Char) : Bool := c == ' ' || c == '\t'

/-- The ends of lines, once they are written in one way: the two separators stay what they are. -/
def isLineEnd (c : Char) : Bool := c == '\n' || c == '\u2028' || c == '\u2029'

def isSpacing (c : Char) : Bool := isGap c || isLineEnd c

/-- Whether a token ends here: at a blank, at the end of a line or of the text. -/
def endsToken (cs : List Char) : Bool := cs.head?.all isSpacing

/-- The characters that have a meaning of their own anywhere in a flow collection. -/
def isFlowMark (c : Char) : Bool := c == ',' || c == '[' || c == ']' || c == '\x7b' || c == '\x7d'

def unifyLines : List Char → List Char
  | '\r' :: '\n' :: rest => '\n' :: unifyLines rest
  | '\r' :: rest => '\n' :: unifyLines rest
  | '\u0085' :: rest => '\n' :: unifyLines rest
  | c :: rest => c :: unifyLines rest
  | [] => []

structure Cursor where
  rest : List Char
  line : Nat
  /-- The number of characters before it in its line. -/
  column : Nat
  /-- The number of bytes before it in its line, in UTF-8. -/
  offset : Nat

namespace Cursor

def start (text : List Char) : Cursor := ⟨text, 0, 0, 0⟩

def next (p : Cursor) : Cursor :=
  match p.rest with
  | [] => p
  | c :: rest =>
    if isLineEnd c then ⟨rest, p.line + 1, 0, 0⟩ else ⟨rest, p.line, p.column + 1, p.offset + c.utf8Size⟩

def advance (p : Cursor) : Nat → Cursor
  | 0 => p
  | n + 1 => p.next.advance n

/-- The blanks and line ends before the next word. -/
def spacing (p : Cursor) : List Char := p.rest.takeWhile isSpacing

/-- Whether a marker between documents stands here: three dashes or three dots at the start of a line. -/
def atMarker (p : Cursor) : Bool :=
  p.column == 0 && (p.rest.take 3 == ['-', '-', '-'] || p.rest.take 3 == ['.', '.', '.']) && endsToken (p.rest.drop 3)

/-- The place of the next token after blanks, comments and line ends, and whether a key may start there: outside flow
collections one may at the start of every line. Where a key may start, a tab is not passed, since it would stand for
indentation. -/
def toToken (p : Cursor) (inFlow keyAllowed : Bool) : Nat → Cursor × Bool
  | 0 => (p, keyAllowed)
  | fuel + 1 =>
    match p.rest with
    | [] => (p, keyAllowed)
    | c :: rest =>
      if c == ' ' || (c == '\t' && (inFlow || !keyAllowed)) || (c == '\ufeff' && p.column == 0) then
        p.next.toToken inFlow keyAllowed fuel
      else if c == '#' then (p.advance (1 + (rest.takeWhile (!isLineEnd ·)).length)).toToken inFlow keyAllowed fuel
      else if isLineEnd c then p.next.toToken inFlow (keyAllowed || !inFlow) fuel
      else (p, keyAllowed)

end Cursor

end Yaml

end CircuitStages
