import CircuitStages.Device.CouplingMap
import CircuitStages.Marks

namespace CircuitStages

/-- A walk, told from its last qubit back to its start. -/
structure Trail where
  last : Nat
  earlier : List Nat
deriving DecidableEq, Repr

namespace Trail

def length (t : Trail) : Nat := t.earlier.length

def extend (t : Trail) (q : Nat) : Trail := ⟨q, t.last :: t.earlier⟩

def path (t : Trail) : List Nat := (t.last :: t.earlier).reverse

end Trail

/-- The trails one link longer than the given ones to qubits not yet seen, in the order in which the trails come, and
what has been seen then. -/
def nextTrails (neighbors : Nat → List Nat) : List Trail → Array Bool → List Trail × Array Bool
  | [], seen => ([], seen)
  | t :: rest, seen =>
    let fresh := (neighbors t.last).filter fun q => !seen.getD q false
    let (others, seen) := nextTrails neighbors rest (mark seen fresh)
    (fresh.map t.extend ++ others, seen)

/-- The given trails, and all that start with one of them and reach new qubits in at most `rounds` more links. -/
def spread (neighbors : Nat → List Nat) : Nat → List Trail → Array Bool → List Trail
  | 0, trails, _ => trails
  | rounds + 1, trails, seen =>
    let (next, seen) := nextTrails neighbors trails seen
    if next.isEmpty then trails else trails ++ spread neighbors rounds next seen

/-- A shortest trail from a qubit to each of `size` qubits that is in reach, nearest first. Shortest trails repeat no
qubit, so as many rounds as there are qubits suffice. -/
def trailsAlong (neighbors : Nat → List Nat) (size start : Nat) : List Trail :=
  if start < size then spread neighbors size [⟨start, []⟩] (marks size [start]) else []

/-- The trail found to a qubit. -/
def trailTo? (found : List Trail) (q : Nat) : Option Trail := found.find? (·.last == q)

/-- What `trailTo?` says of every qubit below `size`. -/
def trailRow (size : Nat) (found : List Trail) : Array (Option Trail) :=
  found.foldr (fun t row => row.setIfInBounds t.last (some t)) (Array.replicate size none)

theorem size_trailRow (size : Nat) (found : List Trail) : (trailRow size found).size = size := by
  induction found with
  | nil => exact Array.size_replicate
  | cons t found ih => exact Array.size_setIfInBounds.trans ih

theorem getElem?_trailRow {size q : Nat} (found : List Trail) (h : q < size) :
    (trailRow size found)[q]? = some (trailTo? found q) := by
  induction found with
  | nil => simp [trailRow, trailTo?, h]
  | cons t found ih =>
    have step : trailRow size (t :: found) = (trailRow size found).setIfInBounds t.last (some t) := rfl
    rw [step, Array.getElem?_setIfInBounds, ih, size_trailRow, trailTo?, trailTo?, List.find?_cons]
    grind

namespace CouplingMap

def neighborTable (m : CouplingMap) : Array (List Nat) := Array.ofFn fun (q : Fin m.numQubits) => m.neighbors q

theorem neighbors_eq_nil {m : CouplingMap} {q : Nat} (h : m.numQubits ≤ q) : m.neighbors q = [] := by
  have none_linked : (m.edges.filterMap fun e =>
      if e.1 = q ∧ e.2 ≠ q then some e.2 else if e.2 = q ∧ e.1 ≠ q then some e.1 else none) = [] := by
    refine List.filterMap_eq_nil_iff.2 fun e he => ?_
    have := m.inRange e he
    rw [if_neg (by omega), if_neg (by omega)]
  rw [neighbors, none_linked]
  rfl

theorem getD_neighborTable (m : CouplingMap) (q : Nat) : m.neighborTable.getD q [] = m.neighbors q := by
  rw [neighborTable, Array.getD_eq_getD_getElem?, Array.getElem?_ofFn]
  split
  · rfl
  · rename_i h
    exact (neighbors_eq_nil (Nat.le_of_not_lt h)).symm

/-- A shortest trail from a qubit to each qubit in reach, nearest first. -/
def trails (m : CouplingMap) (start : Nat) : List Trail :=
  let table := m.neighborTable
  trailsAlong (fun q => table.getD q []) m.numQubits start

theorem trails_eq (m : CouplingMap) (start : Nat) : m.trails start = trailsAlong m.neighbors m.numQubits start :=
  congrArg (trailsAlong · m.numQubits start) (funext m.getD_neighborTable)

/-- The least number of links between two qubits. -/
def distance? (m : CouplingMap) (a b : Nat) : Option Nat := (trailTo? (m.trails a) b).map (·.length)

/-- A path of least length from `a` to `b`, both included. -/
def shortestPath? (m : CouplingMap) (a b : Nat) : Option (List Nat) := (trailTo? (m.trails a) b).map (·.path)

/-- What `trailTo?` says of every start and end, with each search run once. -/
def trailTable (m : CouplingMap) : Array (Array (Option Trail)) :=
  let table := m.neighborTable
  Array.ofFn fun (a : Fin m.numQubits) =>
    trailRow m.numQubits (trailsAlong (fun q => table.getD q []) m.numQubits a)

theorem size_trailTable (m : CouplingMap) : m.trailTable.size = m.numQubits := Array.size_ofFn

theorem getElem?_trailTable (m : CouplingMap) {a : Nat} (ha : a < m.numQubits) :
    m.trailTable[a]? = some (trailRow m.numQubits (m.trails a)) := by
  rw [trailTable, Array.getElem?_ofFn, dif_pos ha]
  rfl

def distances (m : CouplingMap) : Array (Array (Option Nat)) := m.trailTable.map fun row => row.map (·.map (·.length))

def shortestPaths (m : CouplingMap) : Array (Array (Option (List Nat))) :=
  m.trailTable.map fun row => row.map (·.map (·.path))

end CouplingMap

end CircuitStages
