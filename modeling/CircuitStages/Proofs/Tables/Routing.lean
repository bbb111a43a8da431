import CircuitStages.Proofs.Device.Tree
import CircuitStages.Proofs.Mapping.Kept
import CircuitStages.Proofs.Tables.Basic

namespace CircuitStages

variable {α : Type} {m : CouplingMap} {a b n : Nat} {is : List (Instruction α)}

/-- The qubit before each qubit on the shortest path from each start. -/
def CouplingMap.predecessorTable (m : CouplingMap) : Array (Array (Option Nat)) :=
  m.trailTable.map fun row => row.map (·.bind (·.earlier.head?))

/-- Follows predecessors back to the start of a path, whose end is at hand. There is no path if a predecessor is
missing; running out of fuel is a fault. -/
def pathBack? (predecessors : Array (Array (Option Nat))) (start : Nat) :
    Nat → Nat → List Nat → Option (Option (List Nat))
  | 0, _, _ => none
  | fuel + 1, current, path =>
    if current = start then some (some (current :: path))
    else do
      let row ← predecessors[start]?
      match ← row[current]? with
      | none => pure none
      | some previous => pathBack? predecessors start fuel previous (current :: path)

def CouplingMap.shortestPathOnTable? (m : CouplingMap) (a b : Nat) : Option (Option (List Nat)) :=
  match m.distance? a b with
  | none => some none
  | some _ => pathBack? m.predecessorTable a m.numQubits b []

/-- A path without its last qubit; there has to be one. -/
def withoutLast? (path : List Nat) : Option (List Nat) := if path.isEmpty then none else some path.dropLast

/-- Moves what is at `a` next to `b` along a shortest path. -/
def RouteState.walkOnTables? (m : CouplingMap) (s : RouteState α) (name : String) (a b : Nat) :
    Checked CircuitError (RouteState α) := do
  match ← (m.shortestPathOnTable? a b : Option (Option (List Nat))) with
  | none => throw (.unroutable name a b)
  | some path =>
    let front ← (withoutLast? path : Option (List Nat))
    pure (s.swaps (front.zip front.tail))

theorem exists_predecessorTable (ha : a < m.numQubits) (hb : b < m.numQubits) :
    ∃ row, m.predecessorTable[a]? = some row ∧
      row[b]? = some ((trailTo? (m.trails a) b).bind (·.earlier.head?)) := by
  refine ⟨_, by rw [CouplingMap.predecessorTable, Array.getElem?_map, m.getElem?_trailTable ha]; rfl, ?_⟩
  rw [Array.getElem?_map, getElem?_trailRow _ hb]
  rfl

/-- Predecessors lead back along the trail to a qubit. -/
theorem pathBack?_eq {q fuel : Nat} {earlier : List Nat} (ht : ⟨q, earlier⟩ ∈ m.trails a)
    (hfuel : earlier.length < fuel) (path : List Nat) :
    pathBack? m.predecessorTable a fuel q path = some (some (Trail.path ⟨q, earlier⟩ ++ path)) := by
  have hwalk := isWalk_of_mem_trails ht
  induction earlier generalizing q fuel path with
  | nil =>
    obtain ⟨fuel, rfl⟩ := Nat.exists_eq_succ_of_ne_zero (Nat.ne_zero_of_lt hfuel)
    have hq : q = a := by simpa [Trail.path] using hwalk.first
    rw [pathBack?, if_pos hq]
    rfl
  | cons p earlier ih =>
    obtain ⟨fuel, rfl⟩ := Nat.exists_eq_succ_of_ne_zero (Nat.ne_zero_of_lt hfuel)
    have hfront : ⟨p, earlier⟩ ∈ m.trails a := CouplingMap.mem_trails_of_mem ht
    have hpath : Trail.path ⟨q, p :: earlier⟩ = Trail.path ⟨p, earlier⟩ ++ [q] := by simp [Trail.path]
    have hwalkfront := isWalk_of_mem_trails hfront
    have hstart : a ∈ Trail.path ⟨p, earlier⟩ := List.mem_of_head? hwalkfront.first
    have hne : q ≠ a := by
      rintro rfl
      have hnd := hwalk.nodup
      rw [hpath] at hnd
      exact (List.nodup_append.mp hnd).2.2 q hstart q List.mem_cons_self rfl
    have hq : q < m.numQubits := hwalk.inRange q (by simp [Trail.path])
    obtain ⟨row, hrow, hprevious⟩ := exists_predecessorTable (hwalkfront.inRange a hstart) hq
    have htrail := CouplingMap.trailTo?_of_mem ht
    dsimp only at htrail
    rw [pathBack?, if_neg hne, hrow]
    simp only [Option.bind_eq_bind, Option.bind_some, hprevious, htrail, List.head?_cons]
    rw [ih hfront (Nat.lt_of_succ_lt_succ hfuel) (q :: path) hwalkfront, hpath, List.append_assoc]
    rfl

theorem shortestPathOnTable?_eq (m : CouplingMap) (a b : Nat) :
    m.shortestPathOnTable? a b = some (m.shortestPath? a b) := by
  rw [CouplingMap.shortestPathOnTable?, CouplingMap.distance?, CouplingMap.shortestPath?]
  cases hfound : trailTo? (m.trails a) b with
  | none => rfl
  | some t =>
    obtain ⟨q, earlier⟩ := t
    have ht := List.mem_of_find?_eq_some hfound
    have hlast : q = b := by simpa using List.find?_some hfound
    have hfuel : earlier.length + 1 ≤ m.numQubits := by
      simpa [Trail.path] using (isWalk_of_mem_trails ht).length_le
    subst hlast
    simpa using pathBack?_eq ht hfuel []

theorem zip_tail_dropLast (path : List Nat) :
    path.dropLast.zip path.dropLast.tail = RouteState.pathSwaps path := by
  fun_induction RouteState.pathSwaps path with
  | case1 a b c rest ih =>
    rw [← ih]
    rfl
  | case2 path short =>
    rcases path with _ | ⟨a, _ | ⟨b, _ | ⟨c, rest⟩⟩⟩
    · rfl
    · rfl
    · rfl
    · exact absurd rfl (short a b c rest)

namespace RouteState

theorem mirrors_walkOnTables? (s : RouteState α) (name : String) (a b : Nat) :
    Mirrors Eq (s.walkOnTables? m name a b) (s.walk m name a b) := by
  rw [walkOnTables?, walk]
  refine .lift (shortestPathOnTable?_eq m a b) ?_
  cases hpath : m.shortestPath? a b with
  | none => exact .throw _
  | some path =>
    have hne : path ≠ [] := by
      rintro rfl
      cases (isWalk_of_shortestPath? hpath).first
    have hfront : withoutLast? path = some path.dropLast := by simp [withoutLast?, hne]
    refine .lift hfront (.pure ?_)
    rw [zip_tail_dropLast, swapAlong_eq]

/-- Emits an instruction, with the swaps it needs in front of it. -/
def routeNextOnTables? (m : CouplingMap) (s : RouteState α) (i : Instruction α) :
    Checked CircuitError (RouteState α) := do
  let s ←
    match s.blocked? m i with
    | some (a, b) => s.walkOnTables? m i.name a b
    | none => pure s
  pure (s.emit i)

theorem mirrors_routeNextOnTables? (s : RouteState α) (i : Instruction α) :
    Mirrors Eq (s.routeNextOnTables? m i) (s.routeNext m i) := by
  rw [routeNextOnTables?, routeNext]
  cases s.blocked? m i with
  | none => exact .pure rfl
  | some e => exact (s.mirrors_walkOnTables? i.name e.1 e.2).bind fun t u _ htu => .pure (by rw [htu])

end RouteState

def routeBasicOnTables? (m : CouplingMap) (numQubits : Nat) (is : List (Instruction α)) :
    Checked CircuitError (RouteState α) :=
  is.foldlM (RouteState.routeNextOnTables? m) (.start numQubits)

theorem mirrors_routeBasicOnTables? (m : CouplingMap) (numQubits : Nat) (is : List (Instruction α)) :
    Mirrors Eq (routeBasicOnTables? m numQubits is) (routeBasic m numQubits is) := by
  refine .foldlM rfl fun i _ s t hst => ?_
  subst hst
  exact s.mirrors_routeNextOnTables? i

end CircuitStages
