import CircuitStages.Ascending
import CircuitStages.Text.Numeral

namespace CircuitStages

/-- A piece of plain data. An object lists its fields in the order in which they are written. -/
inductive Value where
  | null
  | bool (b : Bool)
  | int (n : Int)
  | float (x : Float)
  | string (s : String)
  | array (items : List Value)
  | object (fields : List (String × Value))

namespace Value

instance : Inhabited Value := ⟨null⟩

/-- Data holds finite numbers only; what is not one is left out. -/
def ofFloat (x : Float) : Value := if x.isFinite then float x else null

def ofNat (n : Nat) : Value := int n

def ofNats (ns : List Nat) : Value := array (ns.map ofNat)

def ofPairs (pairs : List (Nat × Nat)) : Value := array (pairs.map fun p => ofNats [p.1, p.2])

def ofOption {α : Type} (f : α → Value) (x : Option α) : Value := x.elim null f

end Value

/-- A document as it was written, with every field of a mapping in its place. -/
inductive Node where
  /-- A scalar; one that was written bare keeps its text, since it may also be meant as that text. -/
  | scalar (value : Value) (text : Option String)
  | sequence (items : List Node)
  | mapping (entries : List (String × Node))
  /-- A part that is well formed and yet stands for no data: it can be passed over, and every reader refuses it. -/
  | unreadable

inductive DecodeError where
  /-- The text or its shape is wrong. -/
  | malformed
  /-- A required field is missing. -/
  | missing (field : String)
  /-- The data contradicts itself. -/
  | rejected (reason : String)
deriving DecidableEq, Repr

/-- The reason in words, where there is more to say than that the shape is wrong. -/
def DecodeError.reason? : DecodeError → Option String
  | .malformed => none
  | .missing field => some ("missing field `" ++ field ++ "`")
  | .rejected reason => some reason

abbrev Decoded (α : Type) := Except DecodeError α

namespace Node

instance : Inhabited Node := ⟨scalar .null none⟩

/-- The largest number that a size, position or index can have. -/
def maxIndex : Nat := Nat.pow 2 32 - 1

/-- The largest natural number in a document. -/
def maxNatural : Nat := Nat.pow 2 64 - 1

/-- A collection whose place leaves this many levels of nesting, its own among them. -/
def within (levels : Nat) (collection : Node) : Node := if levels = 0 then unreadable else collection

/-- The mapping with these entries; a name that is no text makes it unreadable. -/
def ofEntries (entries : List (Option String × Node)) : Node :=
  match entries.mapM fun entry => entry.1.map fun name => (name, entry.2) with
  | some entries => mapping entries
  | none => unreadable

def asText : Node → Decoded String
  | scalar (.string s) _ => .ok s
  | scalar _ (some text) => .ok text
  | _ => .error .malformed

def asBool : Node → Decoded Bool
  | scalar (.bool b) _ => .ok b
  | _ => .error .malformed

/-- A natural number up to `limit`. A number with a point or a minus sign is not one. -/
def asNatUpTo (limit : Nat) : Node → Decoded Nat
  | scalar (.int n) text =>
    if 0 ≤ n ∧ n ≤ limit ∧ text.all fun t => t.toList.head? != some '-' then .ok n.toNat else .error .malformed
  | _ => .error .malformed

def asNat (n : Node) : Decoded Nat := n.asNatUpTo maxIndex

/-- A number. One that was written bare is read from its text, so that `-0` keeps its sign; any other is what the reader
of the document has made of it. -/
def asFloat : Node → Decoded Float
  | scalar _ (some text) =>
    match Numeral.read? text with
    | some x => .ok x
    | none => .error .malformed
  | scalar (.int n) none => .ok (Float.ofInt n)
  | scalar (.float x) none => .ok x
  | _ => .error .malformed

/-- Items of one kind; where nothing was written, there are none. -/
def asList {α : Type} (item : Node → Decoded α) : Node → Decoded (List α)
  | sequence items => items.mapM item
  | scalar .null (some "") => .ok []
  | _ => .error .malformed

def asPair {α β : Type} (first : Node → Decoded α) (second : Node → Decoded β) : Node → Decoded (α × β)
  | sequence [a, b] => do
    let x ← first a
    let y ← second b
    pure (x, y)
  | _ => .error .malformed

def asOption {α : Type} (value : Node → Decoded α) : Node → Decoded (Option α)
  | scalar .null _ => .ok none
  | n => some <$> value n

/-- The entries of a mapping; where nothing was written, there are none. -/
def asEntries : Node → Decoded (List (String × Node))
  | mapping entries => .ok entries
  | scalar .null (some "") => .ok []
  | _ => .error .malformed

/-- The fields of a record: entries that name none of its known fields twice. -/
def asRecord (known : List String) (n : Node) : Decoded (List (String × Node)) := do
  let entries ← n.asEntries
  if ((entries.map (·.1)).filter (known.contains ·)).Nodup then .ok entries else .error .malformed

mutual

/-- The plain data of a node. A number that fits neither a signed nor an unsigned word of 64 bits has none. -/
def toValue : Node → Decoded Value
  | scalar (.int n) _ => if -(2 : Int) ^ 63 ≤ n ∧ n ≤ maxNatural then .ok (.int n) else .error .malformed
  | scalar (.float x) _ => .ok (.ofFloat x)
  | scalar value _ => .ok value
  | sequence items => .array <$> itemsToValues items
  | mapping entries => .object <$> entriesToValues [] entries
  | unreadable => .error .malformed

def itemsToValues : List Node → Decoded (List Value)
  | [] => .ok []
  | item :: rest => do
    let value ← item.toValue
    let values ← itemsToValues rest
    pure (value :: values)

/-- Of the entries with one name the last one counts. -/
def entriesToValues (found : List (String × Value)) : List (String × Node) → Decoded (List (String × Value))
  | [] => .ok found
  | (name, item) :: rest => do
    let value ← item.toValue
    entriesToValues (insertEntry name value found) rest

end

end Node

def field? (entries : List (String × Node)) (name : String) : Option Node := entries.lookup name

def requiredField {α : Type} (entries : List (String × Node)) (name : String) (value : Node → Decoded α) : Decoded α :=
  match field? entries name with
  | some n => value n
  | none => .error (.missing name)

def defaultedField {α : Type} (entries : List (String × Node)) (name : String) (value : Node → Decoded α)
    (default : α) : Decoded α :=
  match field? entries name with
  | some n => value n
  | none => .ok default

def optionalField {α : Type} (entries : List (String × Node)) (name : String) (value : Node → Decoded α) :
    Decoded (Option α) :=
  defaultedField entries name (Node.asOption value) none

mutual

/-- The document that holds this data and nothing else. The data is handed over as it is, with no text in between. -/
def Value.toNode : Value → Node
  | .array items => .sequence (itemsToNodes items)
  | .object fields => .mapping (fieldsToNodes fields)
  | value => .scalar value none

def itemsToNodes : List Value → List Node
  | [] => []
  | item :: rest => item.toNode :: itemsToNodes rest

def fieldsToNodes : List (String × Value) → List (String × Node)
  | [] => []
  | (name, value) :: rest => (name, value.toNode) :: fieldsToNodes rest

end

end CircuitStages
