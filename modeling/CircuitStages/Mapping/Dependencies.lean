import CircuitStages.Circuit.Basic
import CircuitStages.Marks

namespace CircuitStages

variable {α : Type}

/-- The instructions that the one numbered `index` waits for, given the earlier ones with their numbers, last one first.
An instruction that lists a classical bit twice also waits for itself, and so is never due. -/
def predecessors (earlier : List (Nat × Instruction α)) (index : Nat) (i : Instruction α) : List Nat :=
  let lastWith (uses : Instruction α → Bool) : Option Nat := (earlier.find? fun e => uses e.2).map (·.1)
  i.qubits.filterMap (fun q => lastWith (·.qubits.contains q)) ++
    i.clbits.filterMap (fun b => lastWith (·.clbits.contains b)) ++
    if i.clbits.Nodup then [] else [index]

/-- The predecessors of each instruction, where `earlier` come before them. -/
def predecessorsFrom (earlier : List (Nat × Instruction α)) : List (Instruction α) → List (List Nat)
  | [] => []
  | i :: rest =>
    let index := earlier.length
    predecessors earlier index i :: predecessorsFrom ((index, i) :: earlier) rest

/-- The instructions of a circuit by number, with what each waits for and what waits for it. -/
structure Dependencies (α : Type) where
  instructions : Array (Instruction α)
  before : Array (List Nat)
  after : Array (List Nat)

namespace Dependencies

/-- Turns lists of predecessors into lists of successors, each in ascending order. -/
def successors (before : List (List Nat)) : Array (List Nat) :=
  (before.zipIdx.reverse).foldl (fun after e =>
    e.1.eraseDups.foldl (fun after p => after.modify p (e.2 :: ·)) after) (Array.replicate before.length [])

def ofInstructions (is : List (Instruction α)) : Dependencies α :=
  let before := predecessorsFrom [] is
  ⟨is.toArray, before.toArray, successors before⟩

/-- The waiting instructions that wait for none of the others, in their order. -/
def front (d : Dependencies α) (waiting : List Nat) : List Nat :=
  let isWaiting := marks d.instructions.size waiting
  waiting.filter fun i => (d.before.getD i []).all fun p => !isWaiting.getD p false

def pick (d : Dependencies α) (indices : List Nat) : List (Instruction α) :=
  indices.filterMap fun i => d.instructions[i]?

/-- The operands of the gates on two qubits that come next behind the given instructions, nearest first: a search along
dependencies that stops once `limit` gates are found. -/
def linksBehind (d : Dependencies α) (limit : Nat) : Nat → List Nat → List Nat → List (Nat × Nat) → List (Nat × Nat)
  | 0, _, _, found => found
  | _, [], _, found => found
  | fuel + 1, i :: queue, seen, found =>
    if limit ≤ found.length then found
    else
      let fresh := (d.after.getD i []).filter fun s => !seen.contains s
      d.linksBehind limit fuel (queue ++ fresh) (seen ++ fresh)
        (found ++ (d.pick fresh).filterMap (·.link?))

/-- At most `limit` pairs of operands behind a front. Each instruction is visited once. -/
def lookahead (d : Dependencies α) (limit : Nat) (front : List Nat) : List (Nat × Nat) :=
  (d.linksBehind limit d.instructions.size front front []).take limit

end Dependencies

end CircuitStages
