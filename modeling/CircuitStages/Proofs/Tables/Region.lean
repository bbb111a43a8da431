import CircuitStages.Proofs.Mapping.Region
import CircuitStages.Proofs.Tables.Search
import Mathlib.Data.Prod.Lex

namespace CircuitStages

/-- A region in progress. -/
structure RegionSearch where
  order : List Nat
  /-- The qubits that have been met, placed or not. -/
  met : List Nat
  /-- The qubits that have been met and are to be placed. -/
  queue : List Nat

namespace RegionSearch

def meet (s : RegionSearch) (q : Nat) : RegionSearch :=
  if q ∈ s.met then s else { s with met := s.met ++ [q], queue := s.queue ++ [q] }

/-- Places the qubits of the queue one by one, and puts there the neighbours of each that have not been met. Running out
of fuel before is a fault. -/
def run? (m : CouplingMap) : Nat → RegionSearch → Option RegionSearch
  | 0, s => if s.queue.isEmpty then some s else none
  | fuel + 1, s =>
    match s.queue with
    | [] => some s
    | q :: queue => run? m fuel ((m.neighbors q).foldl meet { s with order := s.order ++ [q], queue })

/-- What has been met is what has been placed, and then the queue. -/
def holding (placed waiting : List Nat) : RegionSearch := ⟨placed, placed ++ waiting, waiting⟩

end RegionSearch

namespace CouplingMap

/-- How many neighbours a qubit has, and then how low its number is. -/
def rank (m : CouplingMap) (q : Nat) : Nat ×ₗ Nat := toLex ((m.neighbors q).length, m.numQubits - q)

/-- The qubit of highest rank, the last of several. -/
def highest? (m : CouplingMap) : Option Nat :=
  (List.range m.numQubits).foldl (fun best q =>
    match best with
    | none => some q
    | some b => if m.rank q < m.rank b then some b else some q) none

/-- The qubits on which a circuit of the given size is placed, in order. -/
def region? (m : CouplingMap) (size : Nat) : Option (List Nat) :=
  match m.highest? with
  | none => some []
  | some start => do
    let s ← RegionSearch.run? m m.numQubits ⟨[], [start], [start]⟩
    pure ((s.order ++ (List.range m.numQubits).filter (· ∉ s.met)).take size)

end CouplingMap

variable {m : CouplingMap} {n q size start : Nat} {placed waiting : List Nat}

theorem absentBelow_eq_filter (n : Nat) (members : List Nat) :
    absentBelow n members = (List.range n).filter (· ∉ members) := by
  refine List.filter_congr fun k hk => ?_
  rw [getD_marks, decide_eq_true (List.mem_range.mp hk)]
  simp

namespace RegionSearch

/-- Meeting different qubits in turn adds those that have not been met. -/
theorem foldl_meet {qs : List Nat} (hnd : qs.Nodup) (s : RegionSearch) : qs.foldl meet s =
    ⟨s.order, s.met ++ qs.filter (· ∉ s.met), s.queue ++ qs.filter (· ∉ s.met)⟩ := by
  induction qs generalizing s with
  | nil => simp
  | cons q qs ih =>
    obtain ⟨hnew, hnd⟩ := List.nodup_cons.mp hnd
    rw [List.foldl_cons, meet]
    split
    next hmet =>
      have hskip : (q :: qs).filter (· ∉ s.met) = qs.filter (· ∉ s.met) :=
        List.filter_cons_of_neg (by simpa using hmet)
      rw [ih hnd, hskip]
    next hmet =>
      have htake : (q :: qs).filter (· ∉ s.met) = q :: qs.filter (· ∉ s.met) :=
        List.filter_cons_of_pos (by simpa using hmet)
      have hrest : qs.filter (· ∉ s.met ++ [q]) = qs.filter (· ∉ s.met) := by
        refine List.filter_congr fun p hp => ?_
        have hne : p ≠ q := fun heq => hnew (heq ▸ hp)
        simp [hne]
      rw [ih hnd, htake]
      simp only [hrest, List.append_assoc, List.singleton_append]

/-- A step places one qubit, and makes its neighbours wait that have not been met. -/
theorem run?_succ_holding (m : CouplingMap) (fuel : Nat) (placed waiting : List Nat) (q : Nat) :
    run? m (fuel + 1) (holding placed (q :: waiting)) = run? m fuel (holding (placed ++ [q])
      (waiting ++ (m.neighbors q).filter (· ∉ placed ++ q :: waiting))) := by
  have hnd : (m.neighbors q).Nodup := nodup_ascendingNats _
  rw [holding, run?]
  simp only [foldl_meet hnd]
  simp [holding]

theorem run?_holding_nil (m : CouplingMap) (fuel : Nat) (placed : List Nat) :
    run? m fuel (holding placed []) = some (holding placed []) := by
  cases fuel <;> rfl

section Trails

variable {trails : List Trail} {seen : Array Bool}

/-- Working off the trails of one length takes a step for each and leaves the trails of the next round waiting. -/
theorem run?_trails (found later : List Trail)
    (hseen : TableSearch.Agrees m.numQubits seen (found ++ (trails ++ later))) (fuel : Nat) :
    run? m (trails.length + fuel) (holding (found.map (·.last)) ((trails ++ later).map (·.last))) =
      run? m fuel (holding ((found ++ trails).map (·.last))
        ((later ++ (nextTrails m.neighbors trails seen).1).map (·.last))) ∧
    TableSearch.Agrees m.numQubits (nextTrails m.neighbors trails seen).2
      (found ++ trails ++ (later ++ (nextTrails m.neighbors trails seen).1)) := by
  induction trails generalizing found later seen with
  | nil =>
    constructor
    · simp [nextTrails]
    · simpa [nextTrails] using hseen
  | cons t trails ih =>
    let fresh := (m.neighbors t.last).filter fun q => !seen.getD q false
    have hfresh : (m.neighbors t.last).filter
        (· ∉ found.map (·.last) ++ t.last :: (trails ++ later).map (·.last)) = fresh := by
      refine List.filter_congr fun q hq => ?_
      have hlt := (CouplingMap.lt_of_isLinked (CouplingMap.mem_neighbors.mp hq).1).2
      rw [hseen.2 q hlt, Bool.eq_iff_iff, decide_eq_true_eq, Bool.not_eq_true', ← Bool.not_eq_true,
        isSome_trailTo?]
      simp
    have hmark : TableSearch.Agrees m.numQubits (mark seen fresh)
        (found ++ [t] ++ (trails ++ (later ++ fresh.map t.extend))) := by
      simpa using hseen.mark fresh t
    have hlast : (fresh.map t.extend).map (·.last) = fresh := by simp [Trail.extend, Function.comp_def]
    have hnext : nextTrails m.neighbors (t :: trails) seen = (fresh.map t.extend ++
      (nextTrails m.neighbors trails (mark seen fresh)).1, (nextTrails m.neighbors trails (mark seen fresh)).2) := rfl
    obtain ⟨hrun, hagrees⟩ := ih (found ++ [t]) (later ++ fresh.map t.extend) hmark
    rw [hnext]
    constructor
    · rw [List.length_cons, Nat.succ_add, List.cons_append, List.map_cons, run?_succ_holding, hfresh]
      simpa [hlast] using hrun
    · simpa using hagrees

/-- The queue is empty once the trails of all rounds have been worked off. -/
theorem run?_spread {k rounds fuel : Nat} (found : List Trail)
    (hseen : TableSearch.Agrees m.numQubits seen (found ++ trails)) (hexplored : Explored m start trails seen)
    (hk : ∀ t ∈ trails, t.length = k) (hrounds : m.numQubits ≤ k + rounds)
    (hfuel : (spread m.neighbors rounds trails seen).length ≤ fuel) :
    run? m fuel (holding (found.map (·.last)) (trails.map (·.last))) =
      some (holding ((found ++ spread m.neighbors rounds trails seen).map (·.last)) []) := by
  induction rounds generalizing found trails seen fuel k with
  | zero =>
    obtain rfl := eq_nil_of_explored hexplored hk hrounds
    rw [spread, List.append_nil, List.map_nil, run?_holding_nil]
  | succ rounds ih =>
    have hround (fuel : Nat) := run?_trails found [] (by rwa [List.append_nil]) fuel
    rw [spread] at hfuel ⊢
    dsimp only at hfuel ⊢
    split at hfuel
    next hempty =>
      obtain ⟨rest, rfl⟩ := Nat.exists_eq_add_of_le hfuel
      have hrun := (hround rest).1
      rw [List.append_nil, List.nil_append, List.isEmpty_iff.mp hempty, List.map_nil, run?_holding_nil] at hrun
      rw [if_pos hempty, hrun]
    next hsome =>
      rw [List.length_append] at hfuel
      obtain ⟨rest, rfl⟩ := Nat.exists_eq_add_of_le (Nat.le_of_add_right_le hfuel)
      obtain ⟨hrun, hagrees⟩ := hround rest
      rw [List.append_nil, List.nil_append] at hrun
      rw [List.nil_append] at hagrees
      rw [if_neg hsome, hrun, ← List.append_assoc]
      exact ih (found ++ trails) hagrees (explored_nextTrails trails seen hseen.1 hexplored)
        (length_of_mem_nextTrails hseen.1 hk) (by omega) (by omega)

end Trails

end RegionSearch

namespace CouplingMap

/-- The search places what is in reach of its start. -/
theorem run?_start (h : start < m.numQubits) : RegionSearch.run? m m.numQubits ⟨[], [start], [start]⟩ =
    some (.holding (m.reached start) []) := by
  have hfuel := m.length_trails_le start
  rw [reached]
  rw [trails_eq_spread h] at hfuel ⊢
  exact RegionSearch.run?_spread (k := 0) [] (TableSearch.agrees_start _ _) (explored_start h)
    (by simp [Trail.length]) (by omega) hfuel

theorem rank_lt_rank_iff {b : Nat} (hb : b < n) (hn : n < m.numQubits) :
    m.rank n < m.rank b ↔ ¬ (m.neighbors b).length < (m.neighbors n).length := by
  rw [rank, rank, Prod.Lex.toLex_lt_toLex]
  omega

/-- The qubit of highest rank is the best linked one. -/
theorem exists_highest (h : 0 < m.numQubits) : ∃ start, m.highest? = some start ∧ m.BestLinked m.numQubits start := by
  have hbelow (n : Nat) (hpos : 1 ≤ n) : n ≤ m.numQubits → ∃ start, (List.range n).foldl (fun best q =>
      match best with
      | none => some q
      | some b => if m.rank q < m.rank b then some b else some q) none = some start ∧ m.BestLinked n start := by
    induction n, hpos using Nat.le_induction with
    | base => exact fun _ => ⟨0, rfl, .zero m⟩
    | succ n _ ih =>
      intro hn
      obtain ⟨b, hb, hbest⟩ := ih (Nat.le_of_succ_le hn)
      rw [List.range_succ, List.foldl_concat, hb]
      simp only [rank_lt_rank_iff hbest.lt hn, ite_not]
      exact ⟨_, (apply_ite some _ _ _).symm, hbest.step⟩
  exact hbelow m.numQubits h (Nat.le_refl _)

theorem BestLinked.unique {b : Nat} (h : m.BestLinked n start) (hb : m.BestLinked n b) : start = b := by
  have heq : (m.neighbors b).length = (m.neighbors start).length :=
    Nat.le_antisymm (h.most b hb.lt) (hb.most start h.lt)
  exact Nat.le_antisymm (h.first b hb.lt heq) (hb.first start h.lt heq.symm)

/-- With a queue, qubits are placed in the order that placement has. -/
theorem region?_eq (m : CouplingMap) (size : Nat) : m.region? size = some (m.fillOrder.take size) := by
  by_cases hpos : 0 < m.numQubits
  · obtain ⟨start, hhighest, hbest⟩ := exists_highest hpos
    obtain ⟨b, hb, hfill⟩ := exists_fillOrder_eq hpos
    obtain rfl := hbest.unique hb
    simp only [region?, hhighest, run?_start hbest.lt, RegionSearch.holding, List.append_nil]
    rw [hfill, absentBelow_eq_filter]
    rfl
  · have hnone : m.numQubits = 0 := Nat.eq_zero_of_not_pos hpos
    have hempty : m.fillOrder = [] := List.eq_nil_of_length_eq_zero (by rw [m.perm_fillOrder.length_eq, hnone]; rfl)
    rw [region?, highest?, hnone, hempty, List.take_nil]
    rfl

/-- Placement gives the virtual qubits the positions of the order, each its own. -/
theorem exists_run_denseLayout (c : Circuit Float) (h : c.numQubits ≤ m.numQubits) : ∃ d l,
    (Pass.denseLayout m).run c = .success d ∧ d.layout = some l ∧
    ∀ v, l.physical? v = (m.fillOrder.take c.numQubits)[v]? := by
  let given := PlacementPass.layout c (.dense m)
  have hcompletes := completes_completeLayout given c.numQubits
  have hlength := (take_fillOrder_spec h).1
  have hrun : (Pass.denseLayout m).run c = .ofCircuit c (c.place given m.numQubits) :=
    PlacementPass.run_pass (.dense m) c
  rw [hrun, Circuit.place, if_neg (Nat.not_lt.mpr h)]
  refine ⟨_, _, rfl, rfl, fun v => ?_⟩
  by_cases hv : v < c.numQubits
  · have hv' : v < (m.fillOrder.take c.numQubits).length := hlength.symm ▸ hv
    have hasked : (v, (m.fillOrder.take c.numQubits)[v]) ∈ given.pairs := by
      rw [PlacementPass.mem_layout_iff]
      exact ⟨hv, by rw [List.getElem_take, List.getElem?_eq_getElem]⟩
    rw [hcompletes.keeps v hv _ hasked, List.getElem?_eq_getElem hv']
  · have hnone : ¬ ((completeLayout given c.numQubits).physical? v).isSome := by
      rwa [hcompletes.isSome_iff]
    rw [Option.not_isSome_iff_eq_none.mp hnone, List.getElem?_eq_none (hlength.symm ▸ Nat.le_of_not_lt hv)]

/-- On a device with room for a circuit of some positive size, the search with a queue ends, and gives as many different
qubits as the circuit has; the virtual qubits are placed there in turn. The first one is the best linked qubit of the
device. The qubits of its part of the map come first, the nearest before the others, and then the rest by number. So, if
that part is large enough, the qubits that have been filled at any time are connected. -/
theorem region_grows (hpos : 0 < size) (hsize : size ≤ m.numQubits) :
    ∃ (order : List Nat) (start : Nat) (component others : List Nat),
      m.region? size = some order ∧
      (∀ c : Circuit Float, c.numQubits = size → ∃ d l, (Pass.denseLayout m).run c = .success d ∧ d.layout = some l ∧
        ∀ v, l.physical? v = order[v]?) ∧
      order.length = size ∧ order.Nodup ∧ (∀ q ∈ order, q < m.numQubits) ∧ order.head? = some start ∧
      order = (component ++ others).take size ∧ m.FillsFrom start component others ∧
      (size ≤ component.length → ∀ k, m.ConnectedOn (order.take k)) := by
  obtain ⟨start, hbest, hfill⟩ := exists_fillOrder_eq (hpos.trans_le hsize)
  obtain ⟨hlength, hnd, hlt⟩ := take_fillOrder_spec hsize
  refine ⟨m.fillOrder.take size, start, m.reached start, absentBelow m.numQubits (m.reached start), m.region?_eq size,
    ?_, hlength, hnd, hlt, ?_, by rw [hfill], hbest.fillsFrom, fun hlarge k => ?_⟩
  · rintro c rfl
    exact exists_run_denseLayout c hsize
  · rw [List.head?_take, if_neg hpos.ne', hfill, List.head?_append, head?_reached hbest.lt]
    rfl
  · rw [List.take_take, hfill, List.take_append_of_le_length ((Nat.min_le_right _ _).trans hlarge)]
    exact m.connectedOn_take_reached start _

/-- Two equally well linked qubits in different parts of a map, links away from them, and a qubit apart. -/
def twoForks : CouplingMap := (ofEdges [(1, 0), (1, 2), (4, 3), (4, 5)]).grow 7

/-- Three qubits fill the first fork of two, and five go beyond it. -/
theorem region_grows_twoForks : (0 < 3 ∧ 3 ≤ twoForks.numQubits) ∧ (0 < 5 ∧ 5 ≤ twoForks.numQubits) ∧
    twoForks.region? 3 = some [1, 0, 2] ∧ (∀ k, twoForks.ConnectedOn ([1, 0, 2].take k)) ∧
    twoForks.region? 5 = some [1, 0, 2, 3, 4] ∧ ∃ component others, twoForks.FillsFrom 1 component others ∧
      [1, 0, 2, 3, 4] = (component ++ others).take 5 := by
  have hthree : 0 < 3 ∧ 3 ≤ twoForks.numQubits := by decide +kernel
  have hfive : 0 < 5 ∧ 5 ≤ twoForks.numQubits := by decide +kernel
  have hfork : twoForks.region? 3 = some [1, 0, 2] := by decide +kernel
  have hbeyond : twoForks.region? 5 = some [1, 0, 2, 3, 4] := by decide +kernel
  obtain ⟨order, start, component, others, horder, -, -, -, -, hhead, -, hfills, hconnected⟩ :=
    region_grows hthree.1 hthree.2
  obtain rfl : order = [1, 0, 2] := Option.some.inj (horder.symm.trans hfork)
  obtain rfl : 1 = start := Option.some.inj hhead
  have hlinked : ∀ q ∈ [1, 0, 2], q < twoForks.numQubits ∧ (q = 1 ∨ twoForks.isLinked 1 q) := by decide +kernel
  have hsub : [1, 0, 2] ⊆ component := by
    intro q hq
    obtain ⟨hlt, rfl | hlink⟩ := hlinked q hq
    · exact (hfills.mem_component 1).mpr ⟨hlt, .refl _ 1⟩
    · exact (hfills.mem_component q).mpr ⟨hlt, .of_isLinked hlink⟩
  have hlarge : 3 ≤ component.length := (List.Nodup.subperm (by decide) hsub).length_le
  obtain ⟨order, start, component', others', horder, -, -, -, -, hhead, htake, hfills', -⟩ :=
    region_grows hfive.1 hfive.2
  obtain rfl : order = [1, 0, 2, 3, 4] := Option.some.inj (horder.symm.trans hbeyond)
  obtain rfl : 1 = start := Option.some.inj hhead
  exact ⟨hthree, hfive, hfork, hconnected hlarge, hbeyond, component', others', hfills', htake⟩

end CouplingMap

end CircuitStages
