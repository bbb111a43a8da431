import CircuitStages.Data.Yaml.Token
import CircuitStages.Data.Yaml.Value

namespace CircuitStages

namespace Yaml

/-- Where a node stands, which decides on the block collections that it may be. -/
inductive Position where
  /-- In a flow collection, without block collections. -/
  | flow
  /-- In a block sequence or alone. -/
  | block
  /-- In a block mapping, where a sequence may start in the column of the keys. -/
  | entry
deriving DecidableEq, Repr

/-- Reads a node, or null if one of these tokens comes instead. -/
def orNull (ends : List Token) (read : List Token → Option (Node × List Token)) (ts : List Token) :
    Option (Node × List Token) :=
  if ts.head?.any ends.contains then some (nullNode, ts) else read ts

/-- Reads the value after a colon; without one it is null. -/
def valueOrNull (ends : List Token) (read : List Token → Option (Node × List Token)) :
    List Token → Option (Node × List Token)
  | .value :: ts => orNull ends read ts
  | ts => some (nullNode, ts)

/-- The mapping with these entries, whose names are scalars. -/
def mappingOf (entries : List (Node × Node)) : Node :=
  .ofEntries (entries.map fun entry => (entry.1.asText.toOption, entry.2))

/-- Collections are read up to this many levels. -/
def maxDepth : Nat := 128

mutual

/-- A node at the start of the tokens, which may have `depth` levels. -/
def node : Nat → Nat → Position → List Token → Option (Node × List Token)
  | 0, _, _, _ => none
  | fuel + 1, depth, position, ts =>
    match ts with
    | .scalar text bare :: rest => some (if bare then plainNode text else .scalar (.string text) none, rest)
    | .flowSequence :: rest => do
      let (items, rest) ← flowItems fuel (depth - 1) rest
      some ((Node.sequence items).within depth, rest)
    | .flowMapping :: rest => do
      let (entries, rest) ← flowEntries fuel (depth - 1) rest
      some ((mappingOf entries).within depth, rest)
    | .blockSequence :: rest =>
      if position = .flow then none
      else do
        let (items, rest) ← blockItems fuel (depth - 1) rest
        some ((Node.sequence items).within depth, rest)
    | .blockMapping :: rest =>
      if position = .flow then none
      else do
        let (entries, rest) ← blockEntries fuel (depth - 1) rest
        some ((mappingOf entries).within depth, rest)
    | .item :: _ =>
      if position = .entry then do
        let (items, rest) ← bareItems fuel (depth - 1) ts
        some ((Node.sequence items).within depth, rest)
      else none
    | _ => none

def blockItems : Nat → Nat → List Token → Option (List Node × List Token)
  | 0, _, _ => none
  | fuel + 1, depth, ts =>
    match ts with
    | .blockEnd :: rest => some ([], rest)
    | .item :: rest => do
      let (item, rest) ← orNull [.item, .blockEnd] (node fuel depth .block) rest
      let (more, rest) ← blockItems fuel depth rest
      some (item :: more, rest)
    | _ => none

/-- The items of a sequence in the column of the keys around it, which ends where no item follows. -/
def bareItems : Nat → Nat → List Token → Option (List Node × List Token)
  | 0, _, _ => none
  | fuel + 1, depth, ts =>
    match ts with
    | .item :: rest => do
      let (item, rest) ← orNull [.item, .key, .value, .blockEnd] (node fuel depth .block) rest
      let (more, rest) ← bareItems fuel depth rest
      some (item :: more, rest)
    | ts => some ([], ts)

def blockEntries : Nat → Nat → List Token → Option (List (Node × Node) × List Token)
  | 0, _, _ => none
  | fuel + 1, depth, ts =>
    match ts with
    | .blockEnd :: rest => some ([], rest)
    | .key :: rest => do
      let (name, rest) ← orNull [.key, .value, .blockEnd] (node fuel depth .entry) rest
      let (item, rest) ← valueOrNull [.key, .value, .blockEnd] (node fuel depth .entry) rest
      let (more, rest) ← blockEntries fuel depth rest
      some ((name, item) :: more, rest)
    | _ => none

/-- The items of a flow sequence up to its closing bracket; a comma may follow the last one. An item with a colon is a
mapping of one entry. -/
def flowItems : Nat → Nat → List Token → Option (List Node × List Token)
  | 0, _, _ => none
  | fuel + 1, depth, ts =>
    match ts with
    | .flowSequenceEnd :: rest => some ([], rest)
    | ts => do
      let (item, rest) ←
        match ts with
        | .key :: rest => do
          let (entry, rest) ← flowPair fuel (depth - 1) rest
          some ((mappingOf [entry]).within depth, rest)
        | ts => node fuel depth .flow ts
      match rest with
      | .flowSequenceEnd :: rest => some ([item], rest)
      | .comma :: rest => do
        let (more, rest) ← flowItems fuel depth rest
        some (item :: more, rest)
      | _ => none

/-- The entry of an item with a colon. A token that stands where the key should be is passed over. -/
def flowPair : Nat → Nat → List Token → Option ((Node × Node) × List Token)
  | 0, _, _ => none
  | fuel + 1, depth, ts => do
    let (name, rest) ←
      if ts.head?.any [Token.value, .comma, .flowSequenceEnd].contains then some (nullNode, ts.drop 1)
      else node fuel depth .flow ts
    let (item, rest) ← valueOrNull [.comma, .flowSequenceEnd] (node fuel depth .flow) rest
    some ((name, item), rest)

/-- The entries of a flow mapping up to its closing brace; a comma may follow the last one, and a value may be left
out. -/
def flowEntries : Nat → Nat → List Token → Option (List (Node × Node) × List Token)
  | 0, _, _ => none
  | fuel + 1, depth, ts =>
    match ts with
    | .flowMappingEnd :: rest => some ([], rest)
    | ts => do
      let (entry, rest) ←
        match ts with
        | .key :: rest => do
          let (name, rest) ← orNull [.value, .comma, .flowMappingEnd] (node fuel depth .flow) rest
          let (item, rest) ← valueOrNull [.comma, .flowMappingEnd] (node fuel depth .flow) rest
          some ((name, item), rest)
        | ts => do
          let (name, rest) ← node fuel depth .flow ts
          some ((name, nullNode), rest)
      match rest with
      | .flowMappingEnd :: rest => some ([entry], rest)
      | .comma :: rest => do
        let (more, rest) ← flowEntries fuel depth rest
        some (entry :: more, rest)
      | _ => none

end

/-- The only document of these tokens; where nothing is written, it is null. -/
def document? (ts : List Token) : Option Node := do
  let read := node (4 * ts.length + 4) maxDepth .block
  let (n, rest) ←
    match ts with
    | [] => some (nullNode, [])
    | [.documentStart] => some (nullNode, [])
    | .documentStart :: rest => orNull [.documentStart, .documentEnd] read rest
    | ts => read ts
  if rest.all (· == .documentEnd) then some n else none

/-- The document that a text holds; a text without content holds null. -/
def read (text : String) : Decoded Node :=
  match tokens? text >>= document? with
  | some n => .ok n
  | none => .error .malformed

end Yaml

end CircuitStages
