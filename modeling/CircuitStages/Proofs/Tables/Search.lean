import CircuitStages.Proofs.Device.Distance
import CircuitStages.Proofs.Tables.Routing

namespace CircuitStages

variable {m : CouplingMap} {n start : Nat} {found pending trails : List Trail} {t : Trail}

/-- A search in progress. -/
structure TableSearch where
  distances : Array (Option Nat)
  predecessors : Array (Option Nat)
  /-- The qubits that have been met and whose neighbours have not been looked at. -/
  queue : List Nat

namespace TableSearch

/-- Notes a neighbour of a qubit if it is met for the first time. The distance of the qubit itself has to be known. -/
def meet? (current : Nat) (s : TableSearch) (neighbor : Nat) : Option TableSearch := do
  match ← s.distances[neighbor]? with
  | some _ => pure s
  | none =>
    let distance ← (← s.distances[current]?)
    let distances ← modify? s.distances neighbor fun _ => some (distance + 1)
    let predecessors ← modify? s.predecessors neighbor fun _ => some current
    pure ⟨distances, predecessors, s.queue ++ [neighbor]⟩

/-- Works the queue off. Running out of fuel before is a fault. -/
def run? (m : CouplingMap) : Nat → TableSearch → Option TableSearch
  | 0, s => if s.queue.isEmpty then some s else none
  | fuel + 1, s =>
    match s.queue with
    | [] => some s
    | current :: queue => do
      let s ← (m.neighbors current).foldlM (meet? current) { s with queue }
      run? m fuel s

end TableSearch

namespace CouplingMap

/-- The search from one qubit. -/
def searchFrom? (m : CouplingMap) (start : Nat) : Option TableSearch := do
  let distances ← modify? (Array.replicate m.numQubits none) start fun _ => some 0
  TableSearch.run? m m.numQubits ⟨distances, Array.replicate m.numQubits none, [start]⟩

/-- The tables of distances and of predecessors, filled by a search from every qubit. -/
def searchAll? (m : CouplingMap) : Option (Array (Array (Option Nat)) × Array (Array (Option Nat))) := do
  let searches ← (List.range m.numQubits).mapM m.searchFrom?
  pure ((searches.map (·.distances)).toArray, (searches.map (·.predecessors)).toArray)

end CouplingMap

theorem trailTo?_concat (hnone : trailTo? found t.last = none) (q : Nat) :
    trailTo? (found ++ [t]) q = if q = t.last then some t else trailTo? found q := by
  rw [trailTo?, List.find?_append, ← trailTo?]
  split
  next hq => simp [hq, hnone]
  next hq =>
    have hmiss : [t].find? (·.last == q) = none := by simpa using Ne.symm hq
    rw [hmiss, Option.or_none]

/-- What is told of the trails changes at the end of a new trail only. -/
theorem update_trailTo? {β : Type} (tell : Option Trail → β) (hnone : trailTo? found t.last = none) :
    Function.update (fun q => tell (trailTo? found q)) t.last (tell (some t)) =
      fun q => tell (trailTo? (found ++ [t]) q) := by
  funext q
  rw [trailTo?_concat hnone, Function.update_apply]
  split <;> rfl

theorem isSome_trailTo? {q : Nat} : (trailTo? found q).isSome ↔ q ∈ found.map (·.last) := by
  simp [trailTo?, List.find?_isSome, List.mem_map]

/-- A search on tables that has found these trails and has not led on from those that are pending. -/
structure TableSearch.Shows (n : Nat) (s : TableSearch) (found pending : List Trail) : Prop where
  distances : Holds s.distances n fun q => (trailTo? found q).map (·.length)
  predecessors : Holds s.predecessors n fun q => (trailTo? found q).bind (·.earlier.head?)
  queue_eq : s.queue = pending.map (·.last)
  nodup : (found.map (·.last)).Nodup
  subset : ∀ t ∈ pending, t ∈ found

namespace TableSearch

variable {s : TableSearch} {seen : Array Bool}

theorem Shows.lead (h : Shows n s found (t :: pending)) :
    Shows n { s with queue := pending.map (·.last) } found pending :=
  ⟨h.distances, h.predecessors, rfl, h.nodup, fun u hu => h.subset u (List.mem_cons_of_mem t hu)⟩

/-- A qubit that is met for the first time ends a new trail. -/
theorem Shows.meet? {q : Nat} (h : Shows n s found pending) (ht : t ∈ found) (hlast : t.last < n) (hq : q < n) :
    ∃ s', TableSearch.meet? t.last s q = some s' ∧
      if q ∈ found.map (·.last) then s' = s else Shows n s' (found ++ [t.extend q]) (pending ++ [t.extend q]) := by
  have htrail := trailTo?_eq_some h.nodup ht
  have hentry := h.distances.getElem?_eq q hq
  split
  next hmet =>
    obtain ⟨u, hu⟩ := Option.isSome_iff_exists.mp (isSome_trailTo?.mpr hmet)
    refine ⟨s, ?_, rfl⟩
    rw [TableSearch.meet?, hentry, hu]
    rfl
  next hnew =>
    have hnone : trailTo? found q = none := by
      rw [← Option.not_isSome_iff_eq_none, isSome_trailTo?]
      exact hnew
    have hcurrent := h.distances.getElem?_eq t.last hlast
    obtain ⟨distances, hdistances, hholds⟩ := h.distances.modify? hq fun _ => some (t.length + 1)
    obtain ⟨predecessors, hpredecessors, hholds'⟩ := h.predecessors.modify? hq fun _ => some t.last
    have hlength := update_trailTo? (t := t.extend q) (·.map (·.length)) hnone
    have hearlier := update_trailTo? (t := t.extend q) (·.bind (·.earlier.head?)) hnone
    refine ⟨⟨distances, predecessors, s.queue ++ [q]⟩, ?_, hlength ▸ hholds, hearlier ▸ hholds', ?_, ?_, ?_⟩
    · simp only [TableSearch.meet?, hentry, hnone, hcurrent, htrail, Option.map_none, Option.map_some,
        Option.bind_eq_bind, Option.bind_some, hdistances, hpredecessors]
      rfl
    · simp [h.queue_eq, Trail.extend]
    · rw [List.map_append]
      refine List.nodup_append.mpr ⟨h.nodup, List.nodup_singleton _, fun p hp r hr hpr => hnew ?_⟩
      rw [List.map_singleton, List.mem_singleton] at hr
      have hpq : p = q := hpr.trans hr
      exact hpq ▸ hp
    · intro u hu
      rcases List.mem_append.mp hu with hu | hu
      · exact List.mem_append_left _ (h.subset u hu)
      · exact List.mem_append_right _ hu

/-- Looking at the neighbours of a qubit in turn extends its trail to those that have not been met. -/
theorem Shows.foldlM_meet? {qs : List Nat} (h : Shows n s found pending) (ht : t ∈ found) (hlast : t.last < n)
    (hqs : ∀ q ∈ qs, q < n) (hnd : qs.Nodup) :
    ∃ s', qs.foldlM (TableSearch.meet? t.last) s = some s' ∧
      Shows n s' (found ++ (qs.filter fun q => !(trailTo? found q).isSome).map t.extend)
        (pending ++ (qs.filter fun q => !(trailTo? found q).isSome).map t.extend) := by
  induction qs generalizing s found pending with
  | nil => exact ⟨s, rfl, by simpa using h⟩
  | cons q qs ih =>
    obtain ⟨hq, hrest⟩ := List.forall_mem_cons.mp hqs
    obtain ⟨hnew, hnd⟩ := List.nodup_cons.mp hnd
    obtain ⟨mid, hmid, hshows⟩ := h.meet? ht hlast hq
    rw [List.foldlM_cons, hmid]
    by_cases hmet : q ∈ found.map (·.last)
    · rw [if_pos hmet] at hshows
      have hskip : (q :: qs).filter (fun p => !(trailTo? found p).isSome) =
          qs.filter fun p => !(trailTo? found p).isSome :=
        List.filter_cons_of_neg (by rw [isSome_trailTo?.mpr hmet]; decide)
      rw [hskip, hshows]
      exact ih h ht hrest hnd
    · rw [if_neg hmet] at hshows
      have hnone : trailTo? found q = none := by
        rw [← Option.not_isSome_iff_eq_none, isSome_trailTo?]
        exact hmet
      have hunmet : !(trailTo? found q).isSome := by rw [hnone]; rfl
      have htake : (q :: qs).filter (fun p => !(trailTo? found p).isSome) =
          q :: qs.filter fun p => !(trailTo? found p).isSome := List.filter_cons_of_pos hunmet
      obtain ⟨s', hs', hall⟩ := ih hshows (List.mem_append_left _ ht) hrest hnd
      have hsame : qs.filter (fun p => !(trailTo? (found ++ [t.extend q]) p).isSome) =
          qs.filter fun p => !(trailTo? found p).isSome := by
        refine List.filter_congr fun p hp => ?_
        have hne : q ≠ p := fun heq => hnew (heq ▸ hp)
        have hkeep : trailTo? (found ++ [t.extend q]) p = trailTo? found p :=
          (trailTo?_concat hnone p).trans (if_neg (Ne.symm hne))
        rw [hkeep]
      rw [hsame] at hall
      rw [htake]
      exact ⟨s', hs', by simpa using hall⟩

/-- Whether marks and trails tell the same of which qubits have been met. -/
def Agrees (n : Nat) (seen : Array Bool) (found : List Trail) : Prop :=
  seen.size = n ∧ ∀ q < n, seen.getD q false = (trailTo? found q).isSome

theorem agrees_start (n start : Nat) : Agrees n (marks n [start]) ([] ++ [⟨start, []⟩]) := by
  refine ⟨size_marks _ _, fun q hq => ?_⟩
  rw [getD_marks, decide_eq_true hq, Bool.true_and, Bool.eq_iff_iff, List.contains_iff_mem, isSome_trailTo?]
  rfl

theorem Agrees.mark (h : Agrees n seen found) (qs : List Nat) (t : Trail) :
    Agrees n (mark seen qs) (found ++ qs.map t.extend) := by
  refine ⟨(size_mark _ _).trans h.1, fun q hq => ?_⟩
  rw [getD_mark, h.1, decide_eq_true hq, Bool.true_and, h.2 q hq, Bool.eq_iff_iff, Bool.or_eq_true,
    List.contains_iff_mem, isSome_trailTo?, isSome_trailTo?, List.map_append, List.mem_append]
  simp [Trail.extend, Function.comp_def]

/-- Working off the trails of one length takes a step for each and leaves the trails of the next round pending. -/
theorem Shows.run?_trails (hm : m.numQubits = n) (later : List Trail) (h : Shows n s found (trails ++ later))
    (hseen : Agrees n seen found) (hlt : ∀ t ∈ trails, t.last < n) (fuel : Nat) :
    ∃ s', TableSearch.run? m (trails.length + fuel) s = TableSearch.run? m fuel s' ∧
      Shows n s' (found ++ (nextTrails m.neighbors trails seen).1) (later ++ (nextTrails m.neighbors trails seen).1) ∧
      Agrees n (nextTrails m.neighbors trails seen).2 (found ++ (nextTrails m.neighbors trails seen).1) := by
  induction trails generalizing s found later seen with
  | nil =>
    refine ⟨s, by rw [List.length_nil, Nat.zero_add], ?_, ?_⟩
    · simpa [nextTrails] using h
    · simpa [nextTrails] using hseen
  | cons t trails ih =>
    obtain ⟨ht, hrest⟩ := List.forall_mem_cons.mp hlt
    have hneighbors : ∀ q ∈ m.neighbors t.last, q < n := fun q hq =>
      hm ▸ (CouplingMap.lt_of_isLinked (CouplingMap.mem_neighbors.mp hq).1).2
    have hfound : t ∈ found := h.subset t List.mem_cons_self
    have hlead : Shows n { s with queue := (trails ++ later).map (·.last) } found (trails ++ later) := h.lead
    obtain ⟨mid, hmid, hshows⟩ := hlead.foldlM_meet? hfound ht hneighbors (nodup_ascendingNats _)
    have hfresh : (m.neighbors t.last).filter (fun q => !(trailTo? found q).isSome) =
        (m.neighbors t.last).filter fun q => !seen.getD q false :=
      List.filter_congr fun q hq => by rw [hseen.2 q (hneighbors q hq)]
    rw [hfresh, List.append_assoc] at hshows
    obtain ⟨s', hs', hall, hagrees⟩ := ih _ hshows
      (hseen.mark _ t) hrest
    refine ⟨s', ?_, ?_, ?_⟩
    · rw [List.length_cons, Nat.succ_add, TableSearch.run?]
      simp only [h.queue_eq, List.cons_append, List.map_cons]
      rw [hmid]
      exact hs'
    · simpa [nextTrails] using hall
    · simpa [nextTrails] using hagrees

/-- The queue is empty once all trails of a search have been found. -/
theorem Shows.run?_spread {k rounds fuel : Nat} {before : List Trail} (hm : m.numQubits = n)
    (h : Shows n s (before ++ trails) trails) (hseen : Agrees n seen (before ++ trails))
    (hexplored : Explored m start trails seen) (hk : ∀ t ∈ trails, t.length = k) (hrounds : n ≤ k + rounds)
    (hfuel : (spread m.neighbors rounds trails seen).length ≤ fuel) :
    ∃ s', TableSearch.run? m fuel s = some s' ∧ Shows n s' (before ++ spread m.neighbors rounds trails seen) [] := by
  have hdone {fuel : Nat} {s : TableSearch} (hempty : s.queue = []) : TableSearch.run? m fuel s = some s := by
    cases fuel <;> simp [TableSearch.run?, hempty]
  induction rounds generalizing before trails seen s fuel k with
  | zero =>
    have hnil := eq_nil_of_explored hexplored hk (by omega)
    subst hnil
    exact ⟨s, hdone h.queue_eq, h⟩
  | succ rounds ih =>
    have hsize : seen.size = m.numQubits := hseen.1.trans hm.symm
    have hlt : ∀ t ∈ trails, t.last < n := fun t ht => by
      have hwalk := (hexplored t ht).1
      exact hm ▸ hwalk.inRange _ (List.mem_of_getLast? hwalk.last)
    rw [spread] at hfuel ⊢
    dsimp only at hfuel ⊢
    split at hfuel
    next hempty =>
      obtain ⟨rest, rfl⟩ := Nat.exists_eq_add_of_le hfuel
      obtain ⟨s', hs', hshows, -⟩ := Shows.run?_trails hm [] (by simpa using h) hseen hlt rest
      have hnone := List.isEmpty_iff.mp hempty
      rw [hnone] at hshows
      rw [if_pos hempty, hs']
      exact ⟨s', hdone hshows.queue_eq, by simpa using hshows⟩
    next hsome =>
      rw [List.length_append] at hfuel
      obtain ⟨rest, rfl⟩ := Nat.exists_eq_add_of_le (Nat.le_of_add_right_le hfuel)
      obtain ⟨s', hs', hshows, hagrees⟩ := Shows.run?_trails hm [] (by simpa using h) hseen hlt rest
      rw [if_neg hsome, hs', ← List.append_assoc]
      exact ih (by simpa using hshows) hagrees (explored_nextTrails trails seen hsize hexplored)
        (length_of_mem_nextTrails hsize hk) (by omega) (by omega)

end TableSearch

theorem CouplingMap.length_trails_le (m : CouplingMap) (start : Nat) : (m.trails start).length ≤ m.numQubits := by
  have hsub : (m.trails start).map (·.last) ⊆ List.range m.numQubits := by
    intro q hq
    obtain ⟨t, ht, rfl⟩ := List.mem_map.mp hq
    have hwalk := isWalk_of_mem_trails ht
    exact List.mem_range.mpr (hwalk.inRange _ (List.mem_of_getLast? hwalk.last))
  simpa using ((m.trails_spec start).1.subperm hsub).length_le

/-- The search from a qubit ends without a fault, and its tables tell the trails to all qubits. -/
theorem CouplingMap.exists_searchFrom? (h : start < m.numQubits) :
    ∃ s, m.searchFrom? start = some s ∧ s.Shows m.numQubits (m.trails start) [] := by
  have hfuel := m.length_trails_le start
  obtain ⟨distances, hdistances, hholds⟩ :=
    (holds_replicate m.numQubits (none : Option Nat)).modify? h fun _ => some 0
  have hshows : TableSearch.Shows m.numQubits ⟨distances, Array.replicate m.numQubits none, [start]⟩
      ([] ++ [⟨start, []⟩]) [⟨start, []⟩] := by
    have hnone : trailTo? [] (Trail.mk start []).last = none := rfl
    refine ⟨?_, (holds_replicate _ _).congr fun q _ => ?_, rfl, List.nodup_singleton start, fun t ht => ht⟩
    · exact update_trailTo? (·.map (·.length)) hnone ▸ hholds
    · rw [trailTo?_concat hnone]
      split <;> rfl
  rw [trails_eq_spread h] at hfuel ⊢
  rw [searchFrom?, hdistances]
  exact hshows.run?_spread (k := 0) rfl (TableSearch.agrees_start _ _) (explored_start h)
    (by simp [Trail.length]) (by omega) hfuel

/-- Searches from all qubits fill the tables of distances and of predecessors. -/
theorem CouplingMap.searchAll?_eq (m : CouplingMap) : m.searchAll? = some (m.distances, m.predecessorTable) := by
  have hrow (a : Nat) : Holds (trailRow m.numQubits (m.trails a)) m.numQubits (trailTo? (m.trails a)) :=
    ⟨size_trailRow _ _, fun q hq => getElem?_trailRow _ hq⟩
  have htable : m.trailTable.toList = (List.range m.numQubits).map fun a => trailRow m.numQubits (m.trails a) :=
    Holds.toList_eq ⟨m.size_trailTable, fun a ha => m.getElem?_trailTable ha⟩
  let result (a : Nat) : TableSearch :=
    ⟨(trailRow m.numQubits (m.trails a)).map (·.map (·.length)),
      (trailRow m.numQubits (m.trails a)).map (·.bind (·.earlier.head?)), []⟩
  have hsearch : ∀ a ∈ List.range m.numQubits, m.searchFrom? a = some (result a) := by
    intro a ha
    obtain ⟨s, hs, hshows⟩ := exists_searchFrom? (List.mem_range.mp ha)
    have hresult : s = ⟨s.distances, s.predecessors, s.queue⟩ := rfl
    rw [hs, hresult, hshows.queue_eq, hshows.distances.unique ((hrow a).map _),
      hshows.predecessors.unique ((hrow a).map fun t => t.bind (·.earlier.head?))]
    rfl
  rw [searchAll?, mapM_eq_some_map hsearch]
  have hdistances : (m.distances : Array _) =
      (((List.range m.numQubits).map result).map (·.distances)).toArray := by
    rw [← Array.toList_inj, distances, Array.toList_map, htable, List.map_map, List.map_map]
    rfl
  have hpredecessors : m.predecessorTable =
      (((List.range m.numQubits).map result).map (·.predecessors)).toArray := by
    rw [← Array.toList_inj, predecessorTable, Array.toList_map, htable, List.map_map, List.map_map]
    rfl
  rw [hdistances, hpredecessors]
  rfl

end CircuitStages
