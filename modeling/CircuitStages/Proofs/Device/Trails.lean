import CircuitStages.Device.Search
import CircuitStages.Proofs.Device.CouplingMap
import Mathlib.Data.List.Chain
import Mathlib.Data.List.Nodup
import Mathlib.Data.List.Perm.Subperm

namespace CircuitStages

/-- A list of qubits that leads from `a` to `b` along links and meets no qubit twice. -/
structure IsWalk (m : CouplingMap) (a b : Nat) (path : List Nat) : Prop where
  first : path.head? = some a
  last : path.getLast? = some b
  linked : path.IsChain (fun p q => m.isLinked p q)
  nodup : path.Nodup
  inRange : ∀ p ∈ path, p < m.numQubits

namespace IsWalk

variable {m : CouplingMap} {a b q : Nat} {path : List Nat}

theorem single (h : a < m.numQubits) : IsWalk m a a [a] :=
  ⟨rfl, rfl, List.isChain_singleton a, List.nodup_singleton a, by simpa using h⟩

theorem append (h : IsWalk m a b path) (hq : q ∈ m.neighbors b) (hnew : q ∉ path) : IsWalk m a q (path ++ [q]) := by
  have link := (CouplingMap.mem_neighbors.mp hq).1
  refine ⟨?_, by simp, ?_, ?_, ?_⟩
  · rw [List.head?_append, h.first]
    rfl
  · refine List.isChain_append.mpr ⟨h.linked, List.isChain_singleton q, ?_⟩
    intro x hx y hy
    rw [h.last] at hx
    cases hx
    cases hy
    exact link
  · exact List.nodup_append.mpr ⟨h.nodup, List.nodup_singleton q, by
      intro x hx y hy he
      exact hnew (List.mem_singleton.mp hy ▸ he ▸ hx)⟩
  · intro p hp
    rcases List.mem_append.mp hp with hp | hp
    · exact h.inRange p hp
    · exact List.mem_singleton.mp hp ▸ (CouplingMap.lt_of_isLinked link).2

/-- A walk has no more qubits than the device. -/
theorem length_le (h : IsWalk m a b path) : path.length ≤ m.numQubits := by
  have hsub : path ⊆ List.range m.numQubits := fun p hp => List.mem_range.mpr (h.inRange p hp)
  simpa using (h.nodup.subperm hsub).length_le

end IsWalk

variable {m : CouplingMap} {start : Nat}

/-- What a search keeps of its frontier: the trails are walks whose qubits have been seen. -/
def Explored (m : CouplingMap) (start : Nat) (trails : List Trail) (seen : Array Bool) : Prop :=
  ∀ t ∈ trails, IsWalk m start t.last t.path ∧ ∀ p ∈ t.path, seen.getD p false

theorem explored_start (h : start < m.numQubits) :
    Explored m start [⟨start, []⟩] (marks m.numQubits [start]) := by
  intro t ht
  rw [List.mem_singleton.mp ht]
  refine ⟨IsWalk.single h, ?_⟩
  intro p hp
  rw [List.mem_singleton.mp hp, getD_marks]
  simp [h]

theorem size_nextTrails (neighbors : Nat → List Nat) (trails : List Trail) (seen : Array Bool) :
    (nextTrails neighbors trails seen).2.size = seen.size := by
  induction trails generalizing seen with
  | nil => rfl
  | cons t trails ih =>
    simp only [nextTrails]
    rw [ih, size_mark]

theorem seen_nextTrails (neighbors : Nat → List Nat) (trails : List Trail) (seen : Array Bool) (p : Nat)
    (h : seen.getD p false) : (nextTrails neighbors trails seen).2.getD p false := by
  induction trails generalizing seen with
  | nil => exact h
  | cons t trails ih =>
    simp only [nextTrails]
    refine ih _ ?_
    rw [getD_mark, h, Bool.true_or]

/-- A walk whose qubits have been seen is led on to a qubit that has not. -/
theorem explored_nextTrails (trails : List Trail) (seen : Array Bool) (hs : seen.size = m.numQubits)
    (h : Explored m start trails seen) :
    Explored m start (nextTrails m.neighbors trails seen).1 (nextTrails m.neighbors trails seen).2 := by
  induction trails generalizing seen with
  | nil => simp [Explored, nextTrails]
  | cons t trails ih =>
    have htrail := h t List.mem_cons_self
    let fresh := (m.neighbors t.last).filter fun q => !seen.getD q false
    have hrest : Explored m start trails (mark seen fresh) := by
      intro u hu
      refine ⟨(h u (List.mem_cons_of_mem _ hu)).1, ?_⟩
      intro p hp
      rw [getD_mark, (h u (List.mem_cons_of_mem _ hu)).2 p hp, Bool.true_or]
    have hnext := ih (mark seen fresh) (by rw [size_mark, hs]) hrest
    simp only [nextTrails]
    intro u hu
    rcases List.mem_append.mp hu with hu | hu
    · obtain ⟨q, hq, rfl⟩ := List.mem_map.mp hu
      have hq' := List.mem_filter.mp hq
      have hnew : q ∉ t.path := by
        intro hin
        simp [htrail.2 q hin] at hq'
      have walk := htrail.1.append hq'.1 hnew
      have hpath : (t.extend q).path = t.path ++ [q] := by simp [Trail.path, Trail.extend]
      rw [hpath]
      refine ⟨walk, ?_⟩
      intro p hp
      refine seen_nextTrails _ _ _ _ ?_
      rw [getD_mark]
      rcases List.mem_append.mp hp with hp | hp
      · rw [htrail.2 p hp, Bool.true_or]
      · rw [List.mem_singleton.mp hp]
        have hlt := walk.inRange q (by simp)
        have hmem : fresh.contains q := List.contains_iff_mem.mpr hq
        rw [hs, decide_eq_true hlt, hmem, Bool.and_self, Bool.or_true]
    · exact hnext u hu

theorem isWalk_of_mem_spread (rounds : Nat) (trails : List Trail) (seen : Array Bool)
    (hs : seen.size = m.numQubits) (h : Explored m start trails seen) (t : Trail)
    (ht : t ∈ spread m.neighbors rounds trails seen) : IsWalk m start t.last t.path := by
  induction rounds generalizing trails seen with
  | zero => exact (h t ht).1
  | succ rounds ih =>
    simp only [spread] at ht
    split at ht
    · exact (h t ht).1
    · rcases List.mem_append.mp ht with ht | ht
      · exact (h t ht).1
      · exact ih _ _ (by rw [size_nextTrails, hs]) (explored_nextTrails trails seen hs h) ht

theorem CouplingMap.trails_eq_spread (h : start < m.numQubits) :
    m.trails start = spread m.neighbors m.numQubits [⟨start, []⟩] (marks m.numQubits [start]) := by
  rw [trails_eq, trailsAlong, if_pos h]

/-- The search finds walks only. -/
theorem isWalk_of_mem_trails {t : Trail} (ht : t ∈ m.trails start) : IsWalk m start t.last t.path := by
  rw [CouplingMap.trails_eq, trailsAlong] at ht
  split at ht
  next h => exact isWalk_of_mem_spread _ _ _ (size_marks _ _) (explored_start h) t ht
  next => simp at ht

theorem isWalk_of_shortestPath? {a b : Nat} {path : List Nat} (h : m.shortestPath? a b = some path) :
    IsWalk m a b path := by
  obtain ⟨t, ht, rfl⟩ := Option.map_eq_some_iff.mp h
  have hlast : t.last = b := by simpa using List.find?_some ht
  exact hlast ▸ isWalk_of_mem_trails (List.mem_of_find?_eq_some ht)

end CircuitStages
