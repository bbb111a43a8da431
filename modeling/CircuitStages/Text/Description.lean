import CircuitStages.Text.Decimal
import CircuitStages.Text.Printable

namespace CircuitStages

def quoteChar (c : Char) : List Char :=
  match c with
  | '\x00' => ['\\', '0']
  | '\t' => ['\\', 't']
  | '\r' => ['\\', 'r']
  | '\n' => ['\\', 'n']
  | '\\' => ['\\', '\\']
  | '"' => ['\\', '"']
  | c => if isHidden c then ['\\', 'u', '\x7b'] ++ Nat.toDigits 16 c.toNat ++ ['\x7d'] else [c]

def quoted (s : String) : String := String.ofList ('"' :: s.toList.flatMap quoteChar ++ ['"'])

/-- What is shown of a thing. -/
inductive Description where
  /-- A name or a number. -/
  | word (w : String)
  /-- A text, shown between quotes. -/
  | text (s : String)
  /-- A name with its arguments in parentheses; without a name a tuple. -/
  | tuple (name : String) (args : List Description)
  /-- A name with its fields in braces. -/
  | record (name : String) (fields : List (String × Description))
  /-- Items in brackets. -/
  | list (items : List Description)
  /-- Items in braces. -/
  | set (items : List Description)
  /-- Entries in braces, each with its key. -/
  | map (entries : List (Description × Description))
  /-- A name in front of a description. -/
  | labelled (name : String) (content : Description)

namespace Description

def ofNat (n : Nat) : Description := word (toString n)

def ofFloat (x : Float) : Description := word (DecimalStyle.pointedText.write x)

def ofBool (b : Bool) : Description := word (if b then "true" else "false")

def ofOption {α : Type} (f : α → Description) : Option α → Description
  | none => word "None"
  | some x => tuple "Some" [f x]

def ofList {α : Type} (f : α → Description) (xs : List α) : Description := list (xs.map f)

def separated (items : List String) : String := ", ".intercalate items

mutual

def render : Description → String
  | word w => w
  | text s => quoted s
  | tuple name args => name ++ "(" ++ separated (renderAll args) ++ ")"
  | record name fields => name ++ " \x7b " ++ separated (renderFields fields) ++ " \x7d"
  | list items => "[" ++ separated (renderAll items) ++ "]"
  | set items => "\x7b" ++ separated (renderAll items) ++ "\x7d"
  | map entries => "\x7b" ++ separated (renderEntries entries) ++ "\x7d"
  | labelled name content => name ++ " " ++ content.render

def renderAll : List Description → List String
  | [] => []
  | d :: rest => d.render :: renderAll rest

def renderFields : List (String × Description) → List String
  | [] => []
  | (name, d) :: rest => (name ++ ": " ++ d.render) :: renderFields rest

def renderEntries : List (Description × Description) → List String
  | [] => []
  | (key, d) :: rest => (key.render ++ ": " ++ d.render) :: renderEntries rest

end

end Description

end CircuitStages
