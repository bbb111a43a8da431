import CircuitStages.Ascending

namespace CircuitStages

/-- The order of links: by first qubit, then by second. -/
def linkBefore (e f : Nat × Nat) : Bool := e.1 < f.1 || (e.1 == f.1 && e.2 < f.2)

theorem linkBefore_trans (a b c : Nat × Nat) (hab : linkBefore a b) (hbc : linkBefore b c) : linkBefore a c := by
  simp only [linkBefore, Bool.or_eq_true, Bool.and_eq_true, decide_eq_true_eq, beq_iff_eq] at *
  omega

/-- The qubits `0` to `numQubits - 1` and the directed links between them. -/
structure CouplingMap where
  numQubits : Nat
  edges : List (Nat × Nat)
  ascending : edges.Pairwise (fun e f => linkBefore e f)
  inRange : ∀ e ∈ edges, e.1 < numQubits ∧ e.2 < numQubits
deriving DecidableEq

namespace CouplingMap

def isolated (n : Nat) : CouplingMap := ⟨n, [], List.Pairwise.nil, by simp⟩

def grow (m : CouplingMap) (n : Nat) : CouplingMap where
  numQubits := max m.numQubits n
  edges := m.edges
  ascending := m.ascending
  inRange e he := by have := m.inRange e he; omega

/-- Adds a link, and with it the qubits it needs. -/
def addEdge (m : CouplingMap) (a b : Nat) : CouplingMap where
  numQubits := max m.numQubits (max a b + 1)
  edges := insertBy linkBefore (a, b) m.edges
  ascending := pairwise_insertBy linkBefore_trans _ m.ascending
  inRange e he := by
    rcases mem_insertBy.1 he with rfl | ⟨he, _⟩
    · simp only; omega
    · have := m.inRange e he; omega

def addEdges (m : CouplingMap) (edges : List (Nat × Nat)) : CouplingMap := edges.foldl (fun m e => m.addEdge e.1 e.2) m

/-- The map with these links and the qubits up to the largest one they mention. -/
def ofEdges (edges : List (Nat × Nat)) : CouplingMap := (isolated 0).addEdges edges

/-- A chain `0 - 1 - … - (n - 1)` with links in both directions. -/
def linear (n : Nat) : CouplingMap :=
  (isolated n).addEdges ((List.range (n - 1)).flatMap fun i => [(i, i + 1), (i + 1, i)])

/-- A chain whose ends are linked as well, if it has more than two qubits. -/
def ring (n : Nat) : CouplingMap :=
  if 2 < n then (linear n).addEdges [(n - 1, 0), (0, n - 1)] else linear n

/-- Links between all pairs of different qubits. -/
def full (n : Nat) : CouplingMap where
  numQubits := n
  edges := (List.range n).flatMap fun a => ((List.range n).filter (· != a)).map fun b => (a, b)
  ascending := by
    refine List.pairwise_flatMap.2 ⟨fun a _ => ?_, ?_⟩
    · refine List.pairwise_map.2 ((List.pairwise_lt_range.filter _).imp fun h => ?_)
      simp [linkBefore, h]
    · refine List.pairwise_lt_range.imp fun h x hx y hy => ?_
      obtain ⟨_, _, rfl⟩ := List.mem_map.1 hx
      obtain ⟨_, _, rfl⟩ := List.mem_map.1 hy
      simp [linkBefore, h]
  inRange e he := by
    obtain ⟨a, ha, he⟩ := List.mem_flatMap.1 he
    obtain ⟨b, hb, rfl⟩ := List.mem_map.1 he
    exact ⟨List.mem_range.1 ha, List.mem_range.1 (List.mem_filter.1 hb).1⟩

/-- Links in both directions between qubit `0` and every other qubit. -/
def star (n : Nat) : CouplingMap :=
  (isolated n).addEdges ((List.range (n - 1)).flatMap fun i => [(0, i + 1), (i + 1, 0)])

def hasEdge (m : CouplingMap) (a b : Nat) : Bool := m.edges.contains (a, b)

/-- Whether there is a link between `a` and `b` in some direction. -/
def isLinked (m : CouplingMap) (a b : Nat) : Bool := m.hasEdge a b || m.hasEdge b a

/-- Adds the reverse of every link that lacks one. -/
def symmetrize (m : CouplingMap) : CouplingMap :=
  m.addEdges ((m.edges.filter fun e => !m.hasEdge e.2 e.1).map fun e => (e.2, e.1))

def isSymmetric (m : CouplingMap) : Bool := m.edges.all fun e => m.hasEdge e.2 e.1

def selfLoops (m : CouplingMap) : List Nat := (m.edges.filter fun e => e.1 == e.2).map (·.1)

/-- The other qubits linked to a qubit in some direction, in ascending order. -/
def neighbors (m : CouplingMap) (q : Nat) : List Nat :=
  ascendingNats (m.edges.filterMap fun e =>
    if e.1 = q ∧ e.2 ≠ q then some e.2 else if e.2 = q ∧ e.1 ≠ q then some e.1 else none)

end CouplingMap

end CircuitStages
