import CircuitStages.Device.Data
import CircuitStages.Proofs.Tables.Search

namespace CircuitStages

/-- A coupling map with tables of distances and predecessors for every start and end. -/
structure StoredMap where
  map : CouplingMap
  distances : Array (Array (Option Nat))
  predecessors : Array (Array (Option Nat))

/-- A map with the tables that belong to it. -/
def CouplingMap.stored (m : CouplingMap) : StoredMap := ⟨m, m.distances, m.predecessorTable⟩

namespace StoredMap

/-- Inserts links, and the qubits they need. The tables stay as they are. -/
def insertAll (x : StoredMap) (edges : List (Nat × Nat)) : StoredMap :=
  edges.foldl (fun x e => { x with map := x.map.addEdge e.1 e.2 }) x

/-- Adds qubits. The tables stay as they are. -/
def grow (x : StoredMap) (n : Nat) : StoredMap := { x with map := x.map.grow n }

/-- Fills both tables anew. -/
def rebuild? (x : StoredMap) : Option StoredMap := do
  let (distances, predecessors) ← x.map.searchAll?
  pure ⟨x.map, distances, predecessors⟩

def isolated? (n : Nat) : Option StoredMap := (grow ⟨.isolated 0, #[], #[]⟩ n).rebuild?

def ofEdges? (edges : List (Nat × Nat)) : Option StoredMap := do
  let x ← isolated? 0
  (x.insertAll edges).rebuild?

def linear? (n : Nat) : Option StoredMap := do
  let x ← isolated? n
  (x.insertAll ((List.range (n - 1)).flatMap fun i => [(i, i + 1), (i + 1, i)])).rebuild?

def ring? (n : Nat) : Option StoredMap := do
  let x ← linear? n
  if 2 < n then (x.insertAll [(n - 1, 0), (0, n - 1)]).rebuild? else pure x

def full? (n : Nat) : Option StoredMap := do
  let x ← isolated? n
  (x.insertAll ((List.range n).flatMap fun a => ((List.range n).filter (· != a)).map fun b => (a, b))).rebuild?

def star? (n : Nat) : Option StoredMap := do
  let x ← isolated? n
  (x.insertAll ((List.range (n - 1)).flatMap fun i => [(0, i + 1), (i + 1, 0)])).rebuild?

/-- The map with these links and at least `n` qubits. -/
def ofParts? (n : Nat) (edges : List (Nat × Nat)) : Option StoredMap := do
  let x ← ofEdges? edges
  if x.map.numQubits < n then (x.grow n).rebuild? else pure x

/-- The pairs that operations list. -/
def pairs {τ : Type} (t : Target τ) : List (Nat × Nat) := t.allProperties.filterMap fun p =>
  match p.qubits with
  | [a, b] => some (a, b)
  | _ => none

/-- The links given by the pairs that operations list, if there are any. -/
def ofTarget? {τ : Type} (t : Target τ) : Option (Option StoredMap) :=
  if (pairs t).isEmpty then some none else some <$> ofParts? t.numQubits (pairs t)

def addEdge? (x : StoredMap) (a b : Nat) : Option StoredMap := (x.insertAll [(a, b)]).rebuild?

/-- Inserts the reverse of every link. -/
def symmetrize? (x : StoredMap) : Option StoredMap := (x.insertAll (x.map.edges.map fun e => (e.2, e.1))).rebuild?

/-- The number of links between two qubits, as the table has it. -/
def distance? (x : StoredMap) (a b : Nat) : Option Nat := (x.distances.getD a #[]).getD b none

/-- A path read backwards from the table of predecessors. -/
def shortestPath? (x : StoredMap) (a b : Nat) : Option (Option (List Nat)) :=
  match x.distance? a b with
  | none => some none
  | some _ => pathBack? x.predecessors a x.map.numQubits b []

/-- The maps that come about by any run of operations. Data are read, and targets turned into maps, where neither is
refused. -/
inductive Built : StoredMap → Prop
  | isolated {n : Nat} {x : StoredMap} : isolated? n = some x → Built x
  | linear {n : Nat} {x : StoredMap} : linear? n = some x → Built x
  | ring {n : Nat} {x : StoredMap} : ring? n = some x → Built x
  | full {n : Nat} {x : StoredMap} : full? n = some x → Built x
  | star {n : Nat} {x : StoredMap} : star? n = some x → Built x
  | ofEdges {edges : List (Nat × Nat)} {x : StoredMap} : ofEdges? edges = some x → Built x
  | ofParts {n : Nat} {edges : List (Nat × Nat)} {m : CouplingMap} {x : StoredMap} :
      CouplingMap.ofParts n edges = .ok m → ofParts? n edges = some x → Built x
  | ofTarget {t : Target Float} {x : StoredMap} : ofTarget? t = some (some x) → Built x
  | addEdge {x y : StoredMap} {a b : Nat} : Built x → x.addEdge? a b = some y → Built y
  | symmetrize {x y : StoredMap} : Built x → x.symmetrize? = some y → Built y

variable {x : StoredMap}

theorem map_insertAll (x : StoredMap) (edges : List (Nat × Nat)) : (x.insertAll edges).map = x.map.addEdges edges := by
  induction edges generalizing x with
  | nil => rfl
  | cons e edges ih => exact ih _

theorem rebuild?_eq (x : StoredMap) : x.rebuild? = some x.map.stored := by
  rw [rebuild?, CouplingMap.searchAll?_eq]
  rfl

theorem isolated?_eq (n : Nat) : isolated? n = some (CouplingMap.isolated n).stored := by
  rw [isolated?, rebuild?_eq]
  refine congrArg (fun m : CouplingMap => some m.stored) ?_
  exact CouplingMap.eq_of_mem_iff (Nat.zero_max n) fun e => Iff.rfl

/-- What is inserted into a fresh map of some qubits. -/
theorem insertAll_isolated (n : Nat) (edges : List (Nat × Nat)) :
    (isolated? n).bind (fun x => (x.insertAll edges).rebuild?) =
      some ((CouplingMap.isolated n).addEdges edges).stored := by
  rw [isolated?_eq, Option.bind_some, rebuild?_eq, map_insertAll]
  rfl

theorem ofEdges?_eq (edges : List (Nat × Nat)) : ofEdges? edges = some (CouplingMap.ofEdges edges).stored :=
  insertAll_isolated 0 edges

theorem linear?_eq (n : Nat) : linear? n = some (CouplingMap.linear n).stored := insertAll_isolated n _

theorem star?_eq (n : Nat) : star? n = some (CouplingMap.star n).stored := insertAll_isolated n _

theorem ring?_eq (n : Nat) : ring? n = some (CouplingMap.ring n).stored := by
  rw [ring?, linear?_eq, CouplingMap.ring, Option.bind_eq_bind, Option.bind_some]
  split
  · rw [rebuild?_eq, map_insertAll]
    rfl
  · rfl

/-- A map is what comes from its qubits by adding its links. -/
theorem addEdges_isolated (m : CouplingMap) : (CouplingMap.isolated m.numQubits).addEdges m.edges = m := by
  refine CouplingMap.eq_of_mem_iff (Nat.le_antisymm ?_ ?_) fun e => ?_
  · exact CouplingMap.numQubits_addEdges_le (Nat.le_refl _) m.inRange
  · exact (CouplingMap.isolated m.numQubits).le_numQubits_addEdges m.edges
  · exact CouplingMap.mem_addEdges.trans (or_iff_right List.not_mem_nil)

theorem full?_eq (n : Nat) : full? n = some (CouplingMap.full n).stored := by
  refine (insertAll_isolated n _).trans (congrArg (fun m : CouplingMap => some m.stored) ?_)
  exact addEdges_isolated (CouplingMap.full n)

theorem ofParts?_eq (n : Nat) (edges : List (Nat × Nat)) :
    ofParts? n edges = some ((CouplingMap.ofEdges edges).grow n).stored := by
  rw [ofParts?, ofEdges?_eq, Option.bind_eq_bind, Option.bind_some]
  split
  · rw [rebuild?_eq]
    rfl
  next hle =>
    refine congrArg (fun m : CouplingMap => some m.stored) ?_
    exact CouplingMap.eq_of_mem_iff (Nat.max_eq_left (Nat.le_of_not_lt hle)).symm fun e => Iff.rfl

theorem ofTarget?_eq {τ : Type} (t : Target τ) : ofTarget? t = some (t.couplingMap?.map CouplingMap.stored) := by
  have hmap : t.couplingMap? =
      if (pairs t).isEmpty then none else some ((CouplingMap.ofEdges (pairs t)).grow t.numQubits) := rfl
  rw [ofTarget?, ofParts?_eq, hmap]
  split <;> rfl

theorem addEdge?_eq (x : StoredMap) (a b : Nat) : x.addEdge? a b = some (x.map.addEdge a b).stored :=
  rebuild?_eq _

theorem symmetrize?_eq (x : StoredMap) : x.symmetrize? = some x.map.symmetrize.stored := by
  rw [symmetrize?, rebuild?_eq, map_insertAll]
  refine congrArg (fun m : CouplingMap => some m.stored) ?_
  refine CouplingMap.eq_of_mem_iff ?_ fun e => ?_
  · refine Nat.le_antisymm ?_ ?_
    · rw [CouplingMap.numQubits_symmetrize]
      refine CouplingMap.numQubits_addEdges_le (Nat.le_refl _) fun e he => ?_
      obtain ⟨d, hd, rfl⟩ := List.mem_map.mp he
      exact (x.map.inRange d hd).symm
    · rw [CouplingMap.numQubits_symmetrize]
      exact CouplingMap.le_numQubits_addEdges _ _
  · rw [CouplingMap.mem_addEdges, CouplingMap.mem_symmetrize, List.mem_map]
    refine or_congr_right ⟨?_, fun h => ⟨_, h, rfl⟩⟩
    rintro ⟨d, hd, rfl⟩
    exact hd

/-- Whatever the operations, the tables belong to the map. -/
theorem Built.eq_stored (h : x.Built) : x = x.map.stored := by
  have done {m : CouplingMap} {y : StoredMap} (hy : some m.stored = some y) : y = y.map.stored := by
    cases hy
    rfl
  cases h with
  | isolated h => exact done ((isolated?_eq _).symm.trans h)
  | linear h => exact done ((linear?_eq _).symm.trans h)
  | ring h => exact done ((ring?_eq _).symm.trans h)
  | full h => exact done ((full?_eq _).symm.trans h)
  | star h => exact done ((star?_eq _).symm.trans h)
  | ofEdges h => exact done ((ofEdges?_eq _).symm.trans h)
  | ofParts _ h => exact done ((ofParts?_eq _ _).symm.trans h)
  | @ofTarget t _ h =>
    rw [ofTarget?_eq, Option.some.injEq] at h
    obtain ⟨m, -, hm⟩ := Option.map_eq_some_iff.mp h
    exact done (congrArg some hm)
  | addEdge _ h => exact done ((addEdge?_eq _ _ _).symm.trans h)
  | symmetrize _ h => exact done ((symmetrize?_eq _).symm.trans h)

/-- Every map comes about by operations: from as many isolated qubits, link by link. -/
theorem built_stored (m : CouplingMap) : m.stored.Built := by
  have links (edges : List (Nat × Nat)) (m : CouplingMap) (hm : m.stored.Built) : (m.addEdges edges).stored.Built := by
    induction edges generalizing m with
    | nil => exact hm
    | cons e edges ih => exact ih _ (hm.addEdge (addEdge?_eq m.stored e.1 e.2))
  rw [← addEdges_isolated m]
  exact links _ _ (.isolated (isolated?_eq _))

theorem distance?_stored (m : CouplingMap) (a b : Nat) : m.stored.distance? a b = m.distance? a b :=
  m.getD_distances a b

theorem shortestPath?_stored (m : CouplingMap) (a b : Nat) :
    m.stored.shortestPath? a b = some (m.shortestPath? a b) := by
  rw [shortestPath?, distance?_stored, ← shortestPathOnTable?_eq, CouplingMap.shortestPathOnTable?]
  rfl

/-- On a map that has come about by any run of operations, queries read off the tables what the map says, without a
fault. The distance is the least number of links between two qubits of the map, in whatever direction the links are;
there is a shortest path exactly where there is a distance, and it is a simple path with as many links. Distances are
symmetric, satisfy the triangle inequality, and stay when all links are made to go both ways. -/
theorem queries_correct (hx : x.Built) (a b : Nat) :
    x.distance? a b = x.map.distance? a b ∧ x.shortestPath? a b = some (x.map.shortestPath? a b) ∧
    (∀ d, x.map.distance? a b = some d ↔ a < x.map.numQubits ∧ b < x.map.numQubits ∧
      IsLeast {k | ∃ path, Leads x.map a b path ∧ path.length = k + 1} d) ∧
    ((x.map.distance? a b).isSome ↔ a < x.map.numQubits ∧ b < x.map.numQubits ∧ ∃ path, Leads x.map a b path) ∧
    (x.map.shortestPath? a b).isSome = (x.map.distance? a b).isSome ∧
    (∀ path, x.map.shortestPath? a b = some path →
      IsWalk x.map a b path ∧ ∃ d, x.map.distance? a b = some d ∧ path.length = d + 1) ∧
    x.map.distance? a b = x.map.distance? b a ∧
    (∀ c d e, x.map.distance? a b = some d → x.map.distance? b c = some e →
      ∃ f ≤ d + e, x.map.distance? a c = some f) ∧
    ∃ y, x.symmetrize? = some y ∧ y.distance? a b = x.distance? a b := by
  have hsymm : x.map.symmetrize.stored.distance? a b = x.distance? a b := by
    rw [hx.eq_stored, distance?_stored, distance?_stored]
    exact x.map.distance?_symmetrize a b
  refine ⟨?_, ?_, fun d => CouplingMap.distance?_eq_some_iff, CouplingMap.isSome_distance?_iff,
    x.map.isSome_shortestPath? a b, fun path => CouplingMap.isWalk_and_distance?_of_shortestPath?,
    x.map.distance?_comm a b, fun c d e => CouplingMap.exists_distance?_le, _, symmetrize?_eq x, hsymm⟩
  · rw [hx.eq_stored]
    exact distance?_stored x.map a b
  · rw [hx.eq_stored]
    exact shortestPath?_stored x.map a b

/-- A chain of links in various directions, one of them from a qubit to itself, and a qubit apart. -/
theorem queries_correct_chain : ∃ x : StoredMap, x.Built ∧
    x.map.edges = [(0, 1), (2, 1), (2, 2), (4, 2)] ∧ x.map.numQubits = 5 ∧
    x.shortestPath? 0 4 = some (some [0, 1, 2, 4]) ∧ x.shortestPath? 0 3 = some none ∧
    IsLeast {k | ∃ path, Leads x.map 0 4 path ∧ path.length = k + 1} 3 := by
  have hx := (Built.ofEdges (ofEdges?_eq [(2, 2), (0, 1), (2, 1)])).addEdge (addEdge?_eq _ 4 2)
  obtain ⟨-, hpath, hleast, -⟩ := queries_correct hx 0 4
  obtain ⟨-, happart, -⟩ := queries_correct hx 0 3
  refine ⟨_, hx, by decide +kernel, by decide +kernel, hpath.trans (by decide +kernel),
    happart.trans (by decide +kernel), ((hleast 3).mp (by decide +kernel)).2.2⟩

end StoredMap

end CircuitStages
