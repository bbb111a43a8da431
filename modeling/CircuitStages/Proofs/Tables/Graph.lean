import CircuitStages.Proofs.Device.Encoding
import CircuitStages.Proofs.Tables.Stored
import Mathlib.Data.List.Destutter
import Mathlib.Data.List.Permutation
import Mathlib.Data.List.Sort

namespace CircuitStages

/-- A library of directed graphs, as far as coupling maps use it. -/
structure DigraphLibrary where
  Graph : Type
  empty : Graph
  addNode : Graph → Nat → Graph
  addEdge : Graph → Nat → Nat → Graph
  hasNode : Graph → Nat → Bool
  hasEdge : Graph → Nat → Nat → Bool
  allEdges : Graph → List (Nat × Nat)
  outgoing : Graph → Nat → List Nat
  incoming : Graph → Nat → List Nat

/-- What is documented of the library: a graph has each link once, a link brings its ends with it, and neighbours are
the other ends of links. Nothing is said of the order in which anything is listed. -/
structure DigraphLibrary.Lawful (lib : DigraphLibrary) : Prop where
  hasNode_empty : ∀ q, lib.hasNode lib.empty q = false
  allEdges_empty : lib.allEdges lib.empty = []
  hasNode_addNode : ∀ g q p, lib.hasNode (lib.addNode g q) p ↔ p = q ∨ lib.hasNode g p
  mem_allEdges_addNode : ∀ g q e, e ∈ lib.allEdges (lib.addNode g q) ↔ e ∈ lib.allEdges g
  hasNode_addEdge : ∀ g a b p, lib.hasNode (lib.addEdge g a b) p ↔ p = a ∨ p = b ∨ lib.hasNode g p
  mem_allEdges_addEdge : ∀ g a b e, e ∈ lib.allEdges (lib.addEdge g a b) ↔ e = (a, b) ∨ e ∈ lib.allEdges g
  nodup_allEdges : ∀ g, (lib.allEdges g).Nodup
  hasEdge_iff : ∀ g a b, lib.hasEdge g a b ↔ (a, b) ∈ lib.allEdges g
  mem_outgoing : ∀ g p q, q ∈ lib.outgoing g p ↔ (p, q) ∈ lib.allEdges g
  mem_incoming : ∀ g p q, q ∈ lib.incoming g p ↔ (q, p) ∈ lib.allEdges g

/-- Works the queue of a search off among the given neighbours. Running out of fuel before is a fault. -/
def TableSearch.runAlong? (neighbors : Nat → List Nat) : Nat → TableSearch → Option TableSearch
  | 0, s => if s.queue.isEmpty then some s else none
  | fuel + 1, s =>
    match s.queue with
    | [] => some s
    | current :: queue => do
      let s ← (neighbors current).foldlM (meet? current) { s with queue }
      runAlong? neighbors fuel s

theorem TableSearch.runAlong?_eq (m : CouplingMap) (fuel : Nat) (s : TableSearch) :
    runAlong? m.neighbors fuel s = run? m fuel s := by
  induction fuel generalizing s with
  | zero => rfl
  | succ fuel ih =>
    rw [runAlong?, run?]
    cases s.queue with
    | nil => rfl
    | cons current queue => simp only [ih]

/-- A coupling map as a graph of a library, with a table of distances and one of predecessors. -/
structure StoredGraph (lib : DigraphLibrary) where
  graph : lib.Graph
  numQubits : Nat
  distances : Array (Array (Option Nat))
  predecessors : Array (Array (Option Nat))

variable {lib : DigraphLibrary}

namespace StoredGraph

/-- A map without qubits, with empty tables. -/
def empty (lib : DigraphLibrary) : StoredGraph lib := ⟨lib.empty, 0, #[], #[]⟩

/-- Adds nodes up to a number of qubits. The tables stay as they are. -/
def grow (x : StoredGraph lib) (n : Nat) : StoredGraph lib :=
  { x with
    graph := (List.range' x.numQubits (n - x.numQubits)).foldl lib.addNode x.graph
    numQubits := max x.numQubits n }

/-- Adds a link, and before it the nodes it needs. The tables stay as they are. -/
def insertEdge (x : StoredGraph lib) (a b : Nat) : StoredGraph lib :=
  { x.grow (max a b + 1) with graph := lib.addEdge (x.grow (max a b + 1)).graph a b }

def insertAll (x : StoredGraph lib) (edges : List (Nat × Nat)) : StoredGraph lib :=
  edges.foldl (fun x e => x.insertEdge e.1 e.2) x

/-- The order in which links are sorted. -/
def linkAtMost (e f : Nat × Nat) : Bool := e.1 < f.1 || (e.1 == f.1 && e.2 ≤ f.2)

def edges (x : StoredGraph lib) : List (Nat × Nat) := (lib.allEdges x.graph).mergeSort linkAtMost

/-- The qubits linked to a qubit, sorted and without repeats. -/
def neighbors (x : StoredGraph lib) (q : Nat) : List Nat :=
  if lib.hasNode x.graph q then
    (((lib.outgoing x.graph q ++ lib.incoming x.graph q).filter (· != q)).mergeSort).destutter (· ≠ ·)
  else []

/-- Fills both tables anew, by a search from every qubit. -/
def rebuild? (x : StoredGraph lib) : Option (StoredGraph lib) := do
  let searches ← (List.range x.numQubits).mapM fun start => do
    let distances ← modify? (Array.replicate x.numQubits none) start fun _ => some 0
    TableSearch.runAlong? x.neighbors x.numQubits ⟨distances, Array.replicate x.numQubits none, [start]⟩
  pure { x with
    distances := (searches.map (·.distances)).toArray
    predecessors := (searches.map (·.predecessors)).toArray }

def isolated? (lib : DigraphLibrary) (n : Nat) : Option (StoredGraph lib) := ((empty lib).grow n).rebuild?

/-- Links between isolated qubits, after which the tables are filled. -/
def linked? (lib : DigraphLibrary) (n : Nat) (edges : List (Nat × Nat)) : Option (StoredGraph lib) := do
  let x ← isolated? lib n
  (x.insertAll edges).rebuild?

/-- Adds the reverse of every link. -/
def symmetrize? (x : StoredGraph lib) : Option (StoredGraph lib) :=
  rebuild? { x with graph := (x.edges.map fun e => (e.2, e.1)).foldl (fun g e => lib.addEdge g e.1 e.2) x.graph }

def distance? (x : StoredGraph lib) (a b : Nat) : Option Nat := (x.distances.getD a #[]).getD b none

/-- A path read backwards from the table of predecessors. -/
def shortestPath? (x : StoredGraph lib) (a b : Nat) : Option (Option (List Nat)) :=
  match x.distance? a b with
  | none => some none
  | some _ => pathBack? x.predecessors a x.numQubits b []

def isSymmetric (x : StoredGraph lib) : Bool := (lib.allEdges x.graph).all fun e => lib.hasEdge x.graph e.2 e.1

def selfLoops (x : StoredGraph lib) : List Nat :=
  (((lib.allEdges x.graph).filter fun e => e.1 == e.2).map (·.1)).mergeSort

def toValue (x : StoredGraph lib) : Value := (CouplingRecord.mk x.numQubits x.edges).toValue

end StoredGraph

/-- The ways in which a coupling map comes about. -/
inductive Construction where
  | isolated (n : Nat)
  | ofEdges (edges : List (Nat × Nat))
  | linear (n : Nat)
  | ring (n : Nat)
  | full (n : Nat)
  | star (n : Nat)
  | addEdge (c : Construction) (a b : Nat)
  | grow (c : Construction) (n : Nat)
  | symmetrize (c : Construction)

namespace Construction

/-- The map that comes about. -/
def map : Construction → CouplingMap
  | isolated n => .isolated n
  | ofEdges edges => .ofEdges edges
  | linear n => .linear n
  | ring n => .ring n
  | full n => .full n
  | star n => .star n
  | addEdge c a b => c.map.addEdge a b
  | grow c n => c.map.grow n
  | symmetrize c => c.map.symmetrize

/-- The map as it is built on a library. Every operation ends by filling the tables. -/
def build? (lib : DigraphLibrary) : Construction → Option (StoredGraph lib)
  | isolated n => StoredGraph.isolated? lib n
  | ofEdges edges => StoredGraph.linked? lib 0 edges
  | linear n => StoredGraph.linked? lib n ((List.range (n - 1)).flatMap fun i => [(i, i + 1), (i + 1, i)])
  | ring n => do
    let x ← StoredGraph.linked? lib n ((List.range (n - 1)).flatMap fun i => [(i, i + 1), (i + 1, i)])
    if 2 < n then (x.insertAll [(n - 1, 0), (0, n - 1)]).rebuild? else pure x
  | full n =>
    StoredGraph.linked? lib n ((List.range n).flatMap fun a => ((List.range n).filter (· != a)).map fun b => (a, b))
  | star n => StoredGraph.linked? lib n ((List.range (n - 1)).flatMap fun i => [(0, i + 1), (i + 1, 0)])
  | addEdge c a b => do
    let x ← c.build? lib
    (x.insertEdge a b).rebuild?
  | grow c n => do
    let x ← c.build? lib
    (x.grow n).rebuild?
  | symmetrize c => do
    let x ← c.build? lib
    x.symmetrize?

end Construction

namespace StoredGraph

/-- The map with the links of a record, grown to the number of qubits that it gives. -/
def ofRecord? (lib : DigraphLibrary) (r : CouplingRecord) : Option (StoredGraph lib) := do
  let x ← (Construction.ofEdges r.edges).build? lib
  if x.numQubits < r.numQubits then (x.grow r.numQubits).rebuild? else pure x

/-- Reads a map, as long as the document asks for no device beyond the limit. -/
def read? (lib : DigraphLibrary) (n : Node) : Decoded (Option (StoredGraph lib)) := do
  let r ← CouplingRecord.ofNode n
  rejectDevice do
    checkDeviceSize r.requested.toNat
    pure (ofRecord? lib r)

/-- Whether the queries of a stored map, none of which comes to a fault, answer what the map says. -/
structure Answers (x : StoredGraph lib) (m : CouplingMap) : Prop where
  numQubits_eq : x.numQubits = m.numQubits
  edges_eq : x.edges = m.edges
  neighbors_eq : ∀ q, x.neighbors q = m.neighbors q
  distance?_eq : ∀ a b, x.distance? a b = m.distance? a b
  shortestPath?_eq : ∀ a b, x.shortestPath? a b = some (m.shortestPath? a b)
  isSymmetric_eq : x.isSymmetric = m.isSymmetric
  selfLoops_eq : x.selfLoops = m.selfLoops

/-- Whether two maps give the same answer to every query. -/
structure Alike (x y : StoredGraph lib) : Prop where
  neighbors_eq : ∀ q, x.neighbors q = y.neighbors q
  distance?_eq : ∀ a b, x.distance? a b = y.distance? a b
  shortestPath?_eq : ∀ a b, x.shortestPath? a b = y.shortestPath? a b
  isSymmetric_eq : x.isSymmetric = y.isSymmetric
  selfLoops_eq : x.selfLoops = y.selfLoops

/-- Maps are compared by their qubits and their sorted links. -/
def Equal (x y : StoredGraph lib) : Prop := x.numQubits = y.numQubits ∧ x.edges = y.edges

variable {x y : StoredGraph lib} {m m' : CouplingMap} {a b n q : Nat}

/-- Whether the graph has the qubits and links of a map. -/
structure Draws (x : StoredGraph lib) (m : CouplingMap) : Prop where
  numQubits_eq : x.numQubits = m.numQubits
  hasNode_iff : ∀ q, lib.hasNode x.graph q ↔ q < m.numQubits
  mem_allEdges_iff : ∀ e, e ∈ lib.allEdges x.graph ↔ e ∈ m.edges

/-- Whether the tables belong to the map as well. -/
structure Stores (x : StoredGraph lib) (m : CouplingMap) : Prop extends Draws x m where
  distances_eq : x.distances = m.distances
  predecessors_eq : x.predecessors = m.predecessorTable

theorem linkAtMost_iff {e f : Nat × Nat} : linkAtMost e f ↔ e.1 < f.1 ∨ e.1 = f.1 ∧ e.2 ≤ f.2 := by
  simp [linkAtMost]

theorem linkAtMost_antisymm {e f : Nat × Nat} (hef : linkAtMost e f) (hfe : linkAtMost f e) : e = f := by
  rw [linkAtMost_iff] at hef hfe
  ext <;> omega

theorem linkAtMost_of_linkBefore {e f : Nat × Nat} (h : linkBefore e f) : linkAtMost e f := by
  simp only [linkBefore, Bool.or_eq_true, Bool.and_eq_true, decide_eq_true_eq, beq_iff_eq] at h
  rw [linkAtMost_iff]
  omega

section Building

variable (hlib : lib.Lawful)

include hlib

theorem draws_empty : (empty lib).Draws (.isolated 0) := by
  refine ⟨rfl, fun q => ?_, fun e => ?_⟩
  · simp [empty, hlib.hasNode_empty, CouplingMap.isolated]
  · simp [empty, hlib.allEdges_empty, CouplingMap.isolated]

/-- Adding nodes adds these nodes and no links. -/
theorem foldl_addNode (qs : List Nat) (g : lib.Graph) :
    (∀ p, lib.hasNode (qs.foldl lib.addNode g) p ↔ p ∈ qs ∨ lib.hasNode g p) ∧
    ∀ e, e ∈ lib.allEdges (qs.foldl lib.addNode g) ↔ e ∈ lib.allEdges g := by
  induction qs generalizing g with
  | nil => simp
  | cons q qs ih =>
    obtain ⟨hnode, hedge⟩ := ih (lib.addNode g q)
    constructor
    · intro p
      rw [List.foldl_cons, hnode, hlib.hasNode_addNode, List.mem_cons]
      tauto
    · intro e
      rw [List.foldl_cons, hedge, hlib.mem_allEdges_addNode]

theorem Draws.grow (h : x.Draws m) (n : Nat) : (x.grow n).Draws (m.grow n) := by
  obtain ⟨hnode, hedge⟩ := foldl_addNode hlib (List.range' x.numQubits (n - x.numQubits)) x.graph
  refine ⟨congrArg (max · n) h.numQubits_eq, fun q => ?_, fun e => ?_⟩
  · have hgrown : (m.grow n).numQubits = max m.numQubits n := rfl
    rw [hgrown, StoredGraph.grow, hnode, h.hasNode_iff, List.mem_range'_1, h.numQubits_eq]
    omega
  · exact (hedge e).trans (h.mem_allEdges_iff e)

theorem Draws.insertEdge (h : x.Draws m) (a b : Nat) : (x.insertEdge a b).Draws (m.addEdge a b) := by
  have hgrown := h.grow hlib (max a b + 1)
  have hsize : (m.addEdge a b).numQubits = (m.grow (max a b + 1)).numQubits := rfl
  refine ⟨hgrown.numQubits_eq, fun q => ?_, fun e => ?_⟩
  · have hends : max a b + 1 ≤ (m.grow (max a b + 1)).numQubits := Nat.le_max_right _ _
    rw [StoredGraph.insertEdge, hlib.hasNode_addEdge, hgrown.hasNode_iff, hsize]
    omega
  · rw [StoredGraph.insertEdge, hlib.mem_allEdges_addEdge, hgrown.mem_allEdges_iff, CouplingMap.mem_addEdge]
    rfl

theorem Draws.insertAll (h : x.Draws m) (edges : List (Nat × Nat)) : (x.insertAll edges).Draws (m.addEdges edges) := by
  induction edges generalizing x m with
  | nil => exact h
  | cons e edges ih => exact ih (h.insertEdge hlib e.1 e.2)

/-- Adding links adds these links and their ends. -/
theorem foldl_addEdge (edges : List (Nat × Nat)) (g : lib.Graph) :
    (∀ p, lib.hasNode (edges.foldl (fun g e => lib.addEdge g e.1 e.2) g) p ↔
      (∃ e ∈ edges, p = e.1 ∨ p = e.2) ∨ lib.hasNode g p) ∧
    ∀ f, f ∈ lib.allEdges (edges.foldl (fun g e => lib.addEdge g e.1 e.2) g) ↔ f ∈ edges ∨ f ∈ lib.allEdges g := by
  induction edges generalizing g with
  | nil => simp
  | cons e edges ih =>
    obtain ⟨hnode, hedge⟩ := ih (lib.addEdge g e.1 e.2)
    constructor
    · intro p
      have hswap (A B C D : Prop) : A ∨ B ∨ C ∨ D ↔ ((B ∨ C) ∨ A) ∨ D := by tauto
      rw [List.foldl_cons, hnode, hlib.hasNode_addEdge, List.exists_mem_cons_iff]
      exact hswap _ _ _ _
    · intro f
      rw [List.foldl_cons, hedge, hlib.mem_allEdges_addEdge, List.mem_cons]
      tauto

/-- Reverse links need no further nodes. -/
theorem Draws.addReversed (h : x.Draws m) {edges : List (Nat × Nat)} (hedges : ∀ e ∈ edges, (e.2, e.1) ∈ m.edges)
    (hall : ∀ e ∈ m.edges, (e.2, e.1) ∈ edges) :
    Draws { x with graph := edges.foldl (fun g e => lib.addEdge g e.1 e.2) x.graph } m.symmetrize := by
  obtain ⟨hnode, hedge⟩ := foldl_addEdge hlib edges x.graph
  refine ⟨h.numQubits_eq.trans m.numQubits_symmetrize.symm, fun q => ?_, fun e => ?_⟩
  · rw [hnode, h.hasNode_iff, m.numQubits_symmetrize]
    constructor
    · rintro (⟨e, he, hq⟩ | hq)
      · have hends := m.inRange _ (hedges e he)
        rcases hq with rfl | rfl
        · exact hends.2
        · exact hends.1
      · exact hq
    · exact .inr
  · have hreversed : e ∈ edges ↔ (e.2, e.1) ∈ m.edges := ⟨hedges e, hall (e.2, e.1)⟩
    rw [hedge, hreversed, h.mem_allEdges_iff, CouplingMap.mem_symmetrize, or_comm]

/-- The links are sorted to the list that the map has. -/
theorem Draws.edges_eq (h : x.Draws m) : x.edges = m.edges := by
  have hsorted : x.edges.Pairwise (fun e f => linkAtMost e f) := by
    refine List.pairwise_mergeSort (fun e f g hef hfg => ?_) (fun e f => ?_) _
    · rw [linkAtMost_iff] at hef hfg ⊢
      omega
    · rw [Bool.or_eq_true, linkAtMost_iff, linkAtMost_iff]
      omega
  have hmap : m.edges.Pairwise (fun e f => linkAtMost e f) := m.ascending.imp linkAtMost_of_linkBefore
  have hnd : m.edges.Nodup := m.ascending.imp fun {e f} hef (heq : e = f) => linkBefore_asymm hef (heq ▸ hef)
  have hperm : x.edges.Perm m.edges :=
    (List.mergeSort_perm _ _).trans ((List.perm_ext_iff_of_nodup (hlib.nodup_allEdges _) hnd).mpr h.mem_allEdges_iff)
  exact hperm.eq_of_pairwise (fun e f _ _ => linkAtMost_antisymm) hsorted hmap

/-- The neighbours are sorted to the list that the map has. -/
theorem Draws.neighbors_eq (h : x.Draws m) (q : Nat) : x.neighbors q = m.neighbors q := by
  rw [neighbors]
  split
  next =>
    let found := ((lib.outgoing x.graph q ++ lib.incoming x.graph q).filter (· != q)).mergeSort
    have hsorted : found.Pairwise (· ≤ ·) := List.pairwise_mergeSort' (· ≤ ·) _
    have hunique : found.destutter (· ≠ ·) = found.dedup := hsorted.destutter_eq_dedup
    have hascending : found.dedup.Pairwise (· < ·) := by
      have hle : found.dedup.Pairwise (· ≤ ·) := hsorted.sublist found.dedup_sublist
      exact hle.imp₂ (fun a b hab hne => Nat.lt_of_le_of_ne hab hne) found.nodup_dedup
    rw [hunique]
    refine eq_of_ascending hascending (pairwise_ascendingNats _) fun p => ?_
    have hfound : p ∈ found ↔ (m.isLinked q p ∧ q ≠ p) := by
      rw [List.mem_mergeSort, List.mem_filter, List.mem_append, hlib.mem_outgoing, hlib.mem_incoming,
        h.mem_allEdges_iff, h.mem_allEdges_iff, CouplingMap.isLinked_iff, bne_iff_ne, ne_comm]
    rw [List.mem_dedup, hfound, ← CouplingMap.mem_neighbors]
  next hnode =>
    rw [h.hasNode_iff] at hnode
    exact (CouplingMap.neighbors_eq_nil (Nat.le_of_not_lt hnode)).symm

/-- Filling the tables gives those that belong to the map. -/
theorem Draws.rebuild?_eq (h : x.Draws m) :
    x.rebuild? = some { x with distances := m.distances, predecessors := m.predecessorTable } := by
  have hsearch (start : Nat) : (do
      let distances ← modify? (Array.replicate x.numQubits none) start fun _ => some 0
      TableSearch.runAlong? x.neighbors x.numQubits ⟨distances, Array.replicate x.numQubits none, [start]⟩) =
      m.searchFrom? start := by
    have hneighbors : x.neighbors = m.neighbors := funext (h.neighbors_eq hlib)
    simp only [hneighbors, h.numQubits_eq, TableSearch.runAlong?_eq]
    rfl
  have hall := m.searchAll?_eq
  rw [CouplingMap.searchAll?] at hall
  obtain ⟨searches, hsearches, htables⟩ := Option.bind_eq_some_iff.mp hall
  obtain ⟨hdistances, hpredecessors⟩ := Prod.mk.inj (Option.some.inj htables)
  rw [rebuild?, funext hsearch, h.numQubits_eq, hsearches]
  simp only [Option.bind_eq_bind, Option.bind_some, hdistances, hpredecessors]
  rfl

theorem Draws.exists_rebuild? (h : x.Draws m) : ∃ y, x.rebuild? = some y ∧ y.Stores m :=
  ⟨_, h.rebuild?_eq hlib, ⟨h.numQubits_eq, h.hasNode_iff, h.mem_allEdges_iff⟩, rfl, rfl⟩

theorem exists_isolated? (n : Nat) : ∃ x, isolated? lib n = some x ∧ x.Stores (.isolated n) := by
  have hgrown := (draws_empty hlib).grow hlib n
  have hsame : (CouplingMap.isolated 0).grow n = .isolated n :=
    CouplingMap.eq_of_mem_iff (Nat.zero_max n) fun e => Iff.rfl
  exact (hsame ▸ hgrown).exists_rebuild? hlib

theorem Stores.exists_insertAll? (h : x.Stores m) (edges : List (Nat × Nat)) :
    ∃ y, (x.insertAll edges).rebuild? = some y ∧ y.Stores (m.addEdges edges) :=
  (h.insertAll hlib edges).exists_rebuild? hlib

theorem exists_linked? (n : Nat) (edges : List (Nat × Nat)) :
    ∃ x, linked? lib n edges = some x ∧ x.Stores ((CouplingMap.isolated n).addEdges edges) := by
  obtain ⟨x, hx, hstores⟩ := exists_isolated? hlib n
  rw [linked?, hx]
  exact hstores.exists_insertAll? hlib edges

/-- Every construction goes through on the library, and stores the map that it is to give. -/
theorem exists_build? (c : Construction) : ∃ x, c.build? lib = some x ∧ x.Stores c.map := by
  induction c with
  | isolated n => exact exists_isolated? hlib n
  | ofEdges edges => exact exists_linked? hlib 0 edges
  | linear n => exact exists_linked? hlib n _
  | star n => exact exists_linked? hlib n _
  | full n =>
    obtain ⟨x, hx, hstores⟩ := exists_linked? hlib n (CouplingMap.full n).edges
    have hfull : (CouplingMap.isolated n).addEdges (CouplingMap.full n).edges = (Construction.full n).map :=
      StoredMap.addEdges_isolated (CouplingMap.full n)
    rw [hfull] at hstores
    exact ⟨x, hx, hstores⟩
  | ring n =>
    obtain ⟨x, hx, hstores⟩ := exists_linked? hlib n
      ((List.range (n - 1)).flatMap fun i => [(i, i + 1), (i + 1, i)])
    rw [Construction.build?, hx, Construction.map, CouplingMap.ring, Option.bind_eq_bind, Option.bind_some]
    split
    next => exact hstores.exists_insertAll? hlib _
    next => exact ⟨x, rfl, hstores⟩
  | addEdge c a b ih =>
    obtain ⟨x, hx, hstores⟩ := ih
    rw [Construction.build?, hx]
    exact (hstores.insertEdge hlib a b).exists_rebuild? hlib
  | grow c n ih =>
    obtain ⟨x, hx, hstores⟩ := ih
    rw [Construction.build?, hx]
    exact (hstores.grow hlib n).exists_rebuild? hlib
  | symmetrize c ih =>
    obtain ⟨x, hx, hstores⟩ := ih
    rw [Construction.build?, hx]
    refine (hstores.addReversed hlib ?_ ?_).exists_rebuild? hlib
    · intro e he
      obtain ⟨d, hd, rfl⟩ := List.mem_map.mp he
      exact hstores.edges_eq hlib ▸ hd
    · intro e he
      exact List.mem_map.mpr ⟨e, (hstores.edges_eq hlib).symm ▸ he, rfl⟩

theorem Stores.isSymmetric_eq (h : x.Stores m) : x.isSymmetric = m.isSymmetric := by
  rw [Bool.eq_iff_iff, isSymmetric, CouplingMap.isSymmetric, List.all_eq_true, List.all_eq_true]
  refine forall_congr' fun e => ?_
  rw [h.mem_allEdges_iff, hlib.hasEdge_iff, h.mem_allEdges_iff, CouplingMap.hasEdge_iff]

theorem Stores.selfLoops_eq (h : x.Stores m) : x.selfLoops = m.selfLoops := by
  have hedges : x.edges.Perm (lib.allEdges x.graph) := List.mergeSort_perm _ _
  rw [h.edges_eq hlib] at hedges
  have hperm : x.selfLoops.Perm m.selfLoops :=
    (List.mergeSort_perm _ _).trans ((hedges.symm.filter _).map _)
  have hsorted : x.selfLoops.Pairwise (· ≤ ·) := List.pairwise_mergeSort' (· ≤ ·) _
  have hmap : m.selfLoops.Pairwise (· ≤ ·) := by
    refine List.pairwise_map.mpr ((m.ascending.filter _).imp fun {e f} hef => ?_)
    have hle := linkAtMost_of_linkBefore hef
    rw [linkAtMost_iff] at hle
    omega
  exact hperm.eq_of_pairwise (fun a b _ _ => Nat.le_antisymm) hsorted hmap

/-- A map with the tables that belong to it answers all queries. -/
theorem Stores.answers (h : x.Stores m) : x.Answers m := by
  have hdistance (a b : Nat) : x.distance? a b = m.distance? a b := by
    rw [distance?, h.distances_eq, m.getD_distances]
  refine ⟨h.numQubits_eq, h.edges_eq hlib, h.neighbors_eq hlib, hdistance, fun a b => ?_, h.isSymmetric_eq hlib,
    h.selfLoops_eq hlib⟩
  rw [shortestPath?, hdistance, h.predecessors_eq, h.numQubits_eq, ← shortestPathOnTable?_eq]
  rfl

/-- Growing to fewer qubits changes nothing, so links that are read and then grown come about by two operations. -/
theorem ofRecord?_eq (r : CouplingRecord) :
    ofRecord? lib r = ((Construction.ofEdges r.edges).grow r.numQubits).build? lib := by
  obtain ⟨x, hx, hstores⟩ := exists_build? hlib (.ofEdges r.edges)
  rw [ofRecord?, hx, Construction.build?, hx, Option.bind_eq_bind, Option.bind_some, Option.bind_some]
  split
  next => rfl
  next hle =>
    have hsame : x.grow r.numQubits = x := by
      have hnone : r.numQubits - x.numQubits = 0 := by omega
      have hmax : max x.numQubits r.numQubits = x.numQubits := by omega
      rw [StoredGraph.grow, hnone, hmax]
      rfl
    rw [hsame, hstores.rebuild?_eq hlib, ← hstores.distances_eq, ← hstores.predecessors_eq]
    rfl

end Building

theorem Answers.alike (hx : x.Answers m) (hy : y.Answers m) : x.Alike y where
  neighbors_eq q := (hx.neighbors_eq q).trans (hy.neighbors_eq q).symm
  distance?_eq a b := (hx.distance?_eq a b).trans (hy.distance?_eq a b).symm
  shortestPath?_eq a b := (hx.shortestPath?_eq a b).trans (hy.shortestPath?_eq a b).symm
  isSymmetric_eq := hx.isSymmetric_eq.trans hy.isSymmetric_eq.symm
  selfLoops_eq := hx.selfLoops_eq.trans hy.selfLoops_eq.symm

theorem Answers.eq_of_equal (hx : x.Answers m) (hy : y.Answers m') (h : x.Equal y) : m = m' := by
  obtain ⟨hsize, hedges⟩ := h
  rw [hx.numQubits_eq, hy.numQubits_eq] at hsize
  rw [hx.edges_eq, hy.edges_eq] at hedges
  exact CouplingMap.eq_of_mem_iff hsize fun e => by rw [hedges]

/-- What a map within the limit writes asks for no more than the map has. -/
theorem Answers.record_fits (hx : x.Answers m) (hsize : x.numQubits ≤ maxDeviceQubits) :
    (CouplingRecord.mk x.numQubits x.edges).InRange ∧ ¬ (CouplingRecord.mk x.numQubits x.edges).TooLarge := by
  have hends : ∀ e ∈ x.edges, e.1 < x.numQubits ∧ e.2 < x.numQubits := by
    rw [hx.edges_eq, hx.numQubits_eq]
    exact m.inRange
  have hlimit : maxDeviceQubits ≤ Node.maxIndex := by decide
  refine ⟨⟨hsize.trans hlimit, fun e he => ?_⟩, ?_⟩
  · have hlt := hends e he
    exact ⟨by omega, by omega⟩
  · rintro (hlarge | ⟨e, he, hlarge⟩)
    · exact Nat.not_lt.mpr hsize hlarge
    · have hlt := hends e he
      omega

/-- Both readers accept and refuse the same documents: those that ask for a device beyond the limit are refused, with
the size that they ask for, and the others are read as the map with their links and qubits. -/
theorem read_cases (hlib : lib.Lawful) {n : Node} {r : CouplingRecord} (h : CouplingRecord.ofNode n = .ok r) :
    (r.TooLarge ∧ ∃ e, e = .rejected (ConfigError.deviceTooLarge r.requested.toNat maxDeviceQubits).message ∧
      CouplingMap.ofNode n = .error e ∧ read? lib n = .error e) ∨
    (¬ r.TooLarge ∧ CouplingMap.ofNode n = .ok ((CouplingMap.ofEdges r.edges).grow r.numQubits) ∧
      read? lib n = .ok (((Construction.ofEdges r.edges).grow r.numQubits).build? lib)) := by
  have hmap : CouplingMap.ofNode n = CouplingRecord.ofNode n >>= fun r =>
      rejectDevice (CouplingMap.ofParts r.numQubits r.edges) := by
    simp only [CouplingMap.ofNode, CouplingRecord.ofNode, bind_assoc, pure_bind]
  have hrequested := CouplingRecord.toNat_requested (CouplingRecord.inRange_of_ofNode h)
  rw [hmap, read?, h]
  have hbind {α : Type} (f : CouplingRecord → Decoded α) : (Except.ok r >>= f) = f r := rfl
  rw [hbind, hbind, CouplingMap.ofParts, ← hrequested]
  by_cases hlarge : r.TooLarge
  · left
    have hsize : maxDeviceQubits < r.requested.toNat := by
      rwa [CouplingRecord.tooLarge_iff, ← hrequested, Nat.not_le] at hlarge
    rw [checkDeviceSize_eq_error hsize]
    exact ⟨hlarge, _, rfl, rfl, rfl⟩
  · right
    have hsize : r.requested.toNat ≤ maxDeviceQubits := by
      rwa [CouplingRecord.tooLarge_iff, not_not, ← hrequested] at hlarge
    rw [checkDeviceSize_eq_ok_iff.mpr hsize, ofRecord?_eq hlib]
    exact ⟨hlarge, rfl, rfl⟩

section Reading

variable (hlib : lib.Lawful) {r : CouplingRecord} {node : Node}

include hlib

/-- Every construction goes through, and answers all queries as the links themselves do. -/
theorem exists_answers (c : Construction) : ∃ x, c.build? lib = some x ∧ x.Answers c.map := by
  obtain ⟨x, hx, hstores⟩ := exists_build? hlib c
  exact ⟨x, hx, hstores.answers hlib⟩

theorem refuses_iff (h : CouplingRecord.ofNode node = .ok r) : (∃ e, read? lib node = .error e) ↔ r.TooLarge := by
  rcases read_cases hlib h with ⟨hlarge, e, -, -, hread⟩ | ⟨hsmall, -, hread⟩
  · exact iff_of_true ⟨e, hread⟩ hlarge
  · refine iff_of_false ?_ hsmall
    rintro ⟨e, he⟩
    cases hread.symm.trans he

/-- The errors are those of the coupling map that is read from the document. -/
theorem read_eq_error_iff (h : CouplingRecord.ofNode node = .ok r) (e : DecodeError) :
    read? lib node = .error e ↔ CouplingMap.ofNode node = .error e := by
  rcases read_cases hlib h with ⟨-, f, -, hmap, hread⟩ | ⟨-, hmap, hread⟩
  · rw [hmap, hread]
    exact ⟨fun h => congrArg _ (Except.error.inj h), fun h => congrArg _ (Except.error.inj h)⟩
  · rw [hmap, hread]
    exact iff_of_false nofun nofun

theorem eq_build_of_read (h : CouplingRecord.ofNode node = .ok r) {x? : Option (StoredGraph lib)}
    (hread : read? lib node = .ok x?) : x? = ((Construction.ofEdges r.edges).grow r.numQubits).build? lib := by
  rcases read_cases hlib h with ⟨-, e, -, -, herror⟩ | ⟨-, -, hok⟩
  · cases hread.symm.trans herror
  · exact Except.ok.inj (hread.symm.trans hok)

/-- A map within the limit is read back from what it writes. -/
theorem Answers.exists_read (hx : x.Answers m) (hsize : x.numQubits ≤ maxDeviceQubits) :
    ∃ y, read? lib x.toValue.toNode = .ok (some y) ∧ y.Equal x ∧ y.Alike x := by
  obtain ⟨hinRange, hsmall⟩ := hx.record_fits hsize
  obtain ⟨y, hy, hyr⟩ := exists_answers hlib ((Construction.ofEdges x.edges).grow x.numQubits)
  have hsame : ((Construction.ofEdges x.edges).grow x.numQubits).map = m := by
    rw [hx.edges_eq, hx.numQubits_eq]
    exact m.grow_ofEdges
  rw [hsame] at hyr
  rcases read_cases hlib (CouplingRecord.ofNode_toNode hinRange) with ⟨hlarge, -⟩ | ⟨-, -, hread⟩
  · exact absurd hlarge hsmall
  · rw [hy] at hread
    exact ⟨y, hread, ⟨hyr.numQubits_eq.trans hx.numQubits_eq.symm, hyr.edges_eq.trans hx.edges_eq.symm⟩, hyr.alike hx⟩

/-- On any library that does as documented, every construction goes through and gives the answers of the map that it is
to give, and two maps with the same qubits and sorted links answer every query alike, whatever the constructions. A
document is refused exactly if it asks for a device beyond the limit, by the number of qubits or by an index of a link,
and is read as a construction otherwise; there is a document for every record of indices. A map within the limit is read
back from what it writes as an equal one. -/
theorem equal_maps_alike :
    (∀ c d : Construction, ∃ x y : StoredGraph lib, c.build? lib = some x ∧ d.build? lib = some y ∧
      x.Answers c.map ∧ y.Answers d.map ∧ (x.Equal y → x.Alike y)) ∧
    (∀ node r, CouplingRecord.ofNode node = .ok r →
      ((∃ e, read? lib node = .error e) ↔ maxDeviceQubits < r.numQubits ∨
        ∃ e ∈ r.edges, maxDeviceQubits < e.1 + 1 ∨ maxDeviceQubits < e.2 + 1) ∧
      (∀ e, read? lib node = .error e ↔ CouplingMap.ofNode node = .error e) ∧
      ∀ x?, read? lib node = .ok x? → x? = ((Construction.ofEdges r.edges).grow r.numQubits).build? lib) ∧
    (∀ r : CouplingRecord, r.InRange → ∃ node, CouplingRecord.ofNode node = .ok r) ∧
    ∀ (c : Construction) (x : StoredGraph lib), c.build? lib = some x → x.numQubits ≤ maxDeviceQubits →
      ∃ y, read? lib x.toValue.toNode = .ok (some y) ∧ y.Equal x ∧ y.Alike x := by
  refine ⟨fun c d => ?_, fun node r h => ?_, fun r hr => ⟨_, CouplingRecord.ofNode_toNode hr⟩, fun c x hx hsize => ?_⟩
  · obtain ⟨x, hx, hxc⟩ := exists_answers hlib c
    obtain ⟨y, hy, hyd⟩ := exists_answers hlib d
    refine ⟨x, y, hx, hy, hxc, hyd, fun hequal => ?_⟩
    rw [← hxc.eq_of_equal hyd hequal] at hyd
    exact hxc.alike hyd
  · exact ⟨refuses_iff hlib h, read_eq_error_iff hlib h, fun x? => eq_build_of_read hlib h⟩
  · obtain ⟨y, hy, hyc⟩ := exists_answers hlib c
    obtain rfl : y = x := Option.some.inj (hy.symm.trans hx)
    exact hyc.exists_read hlib hsize

end Reading

end StoredGraph

/-- A graph that lists its nodes and links in the order in which they came. -/
structure OrderedGraph where
  nodes : List Nat
  links : List (Nat × Nat)
  nodup : links.Nodup

namespace OrderedGraph

variable {α : Type} [DecidableEq α]

def appendNew (l : List α) (a : α) : List α := if a ∈ l then l else l ++ [a]

theorem mem_appendNew {l : List α} {a b : α} : b ∈ appendNew l a ↔ b = a ∨ b ∈ l := by
  rw [appendNew]
  split
  next ha => exact ⟨.inr, fun h => h.elim (fun hb => hb ▸ ha) id⟩
  next => rw [List.mem_append, List.mem_singleton, or_comm]

theorem nodup_appendNew {l : List α} (h : l.Nodup) (a : α) : (appendNew l a).Nodup := by
  rw [appendNew]
  split
  next => exact h
  next ha => exact List.nodup_append_comm.mpr (h.cons ha)

def addNode (g : OrderedGraph) (q : Nat) : OrderedGraph := { g with nodes := appendNew g.nodes q }

def addEdge (g : OrderedGraph) (a b : Nat) : OrderedGraph where
  nodes := appendNew (appendNew g.nodes a) b
  links := appendNew g.links (a, b)
  nodup := nodup_appendNew g.nodup (a, b)

def outgoing (g : OrderedGraph) (q : Nat) : List Nat := (g.links.filter (·.1 == q)).map (·.2)

def incoming (g : OrderedGraph) (q : Nat) : List Nat := (g.links.filter (·.2 == q)).map (·.1)

end OrderedGraph

/-- Ordered graphs as a library. -/
def orderedGraphs : DigraphLibrary where
  Graph := OrderedGraph
  empty := ⟨[], [], .nil⟩
  addNode := OrderedGraph.addNode
  addEdge := OrderedGraph.addEdge
  hasNode g q := g.nodes.contains q
  hasEdge g a b := g.links.contains (a, b)
  allEdges := OrderedGraph.links
  outgoing := OrderedGraph.outgoing
  incoming := OrderedGraph.incoming

theorem lawful_orderedGraphs : orderedGraphs.Lawful where
  hasNode_empty _ := rfl
  allEdges_empty := rfl
  hasNode_addNode g q p := by
    simp only [orderedGraphs, List.contains_iff_mem]
    exact OrderedGraph.mem_appendNew
  mem_allEdges_addNode _ _ _ := Iff.rfl
  hasNode_addEdge g a b p := by
    have hnodes : (g.addEdge a b).nodes = OrderedGraph.appendNew (OrderedGraph.appendNew g.nodes a) b := rfl
    simp only [orderedGraphs, List.contains_iff_mem]
    rw [hnodes, OrderedGraph.mem_appendNew, OrderedGraph.mem_appendNew]
    exact or_left_comm
  mem_allEdges_addEdge _ _ _ _ := OrderedGraph.mem_appendNew
  nodup_allEdges := OrderedGraph.nodup
  hasEdge_iff _ _ _ := List.contains_iff_mem
  mem_outgoing g p q := by simp [orderedGraphs, OrderedGraph.outgoing]
  mem_incoming g p q := by simp [orderedGraphs, OrderedGraph.incoming]

/-- The same map in two ways, so that its links come in different orders, and a document whose one index is the largest
there is. -/
theorem equal_maps_alike_reordered : orderedGraphs.Lawful ∧ ∃ c d : Construction, ∃ x y : StoredGraph orderedGraphs,
    c.build? orderedGraphs = some x ∧ d.build? orderedGraphs = some y ∧
    x.graph.links = [(2, 1), (0, 1), (1, 0), (1, 2)] ∧ y.graph.links = [(0, 1), (2, 1), (1, 2), (1, 0)] ∧
    x.Equal y ∧ x.Alike y ∧ x.shortestPath? 0 2 = some (some [0, 1, 2]) ∧
    (∃ z, StoredGraph.read? orderedGraphs x.toValue.toNode = .ok (some z) ∧ z.Equal x ∧ z.Alike x) ∧
    ∃ node, CouplingRecord.ofNode node = .ok ⟨0, [(Node.maxIndex, 0)]⟩ ∧
      ∃ e, StoredGraph.read? orderedGraphs node = .error e := by
  obtain ⟨halike, hreads, hwritten, hback⟩ := StoredGraph.equal_maps_alike lawful_orderedGraphs
  let c : Construction := ((Construction.ofEdges [(2, 1), (0, 1), (2, 1)]).grow 4).symmetrize
  let d : Construction := ((((Construction.isolated 4).addEdge 0 1).addEdge 2 1).addEdge 1 2).addEdge 1 0
  obtain ⟨x, y, hx, hy, hxc, hyd, hequal⟩ := halike c d
  have hmaps : c.map.numQubits = d.map.numQubits ∧ c.map.edges = d.map.edges := by decide +kernel
  have hsame : x.Equal y := by
    constructor
    · rw [hxc.numQubits_eq, hyd.numQubits_eq, hmaps.1]
    · rw [hxc.edges_eq, hyd.edges_eq, hmaps.2]
  have hlinks : (c.build? orderedGraphs).map (·.graph.links) = some [(2, 1), (0, 1), (1, 0), (1, 2)] := by cbv
  have hlinks' : (d.build? orderedGraphs).map (·.graph.links) = some [(0, 1), (2, 1), (1, 2), (1, 0)] := by cbv
  rw [hx] at hlinks
  rw [hy] at hlinks'
  have hpath : c.map.shortestPath? 0 2 = some [0, 1, 2] := by decide +kernel
  have hsmall : x.numQubits ≤ maxDeviceQubits := by
    rw [hxc.numQubits_eq]
    decide +kernel
  let r : CouplingRecord := ⟨0, [(Node.maxIndex, 0)]⟩
  obtain ⟨node, hnode⟩ := hwritten r ⟨Nat.zero_le _, by decide⟩
  have hlarge : ∃ e ∈ r.edges, maxDeviceQubits < e.1 + 1 ∨ maxDeviceQubits < e.2 + 1 :=
    ⟨_, List.mem_singleton_self _, .inl (by decide)⟩
  exact ⟨lawful_orderedGraphs, c, d, x, y, hx, hy, Option.some.inj hlinks, Option.some.inj hlinks', hsame,
    hequal hsame, (hxc.shortestPath?_eq 0 2).trans (congrArg _ hpath), hback c x hx hsmall, node, hnode,
    (hreads node r hnode).1.mpr (.inr hlarge)⟩

end CircuitStages
