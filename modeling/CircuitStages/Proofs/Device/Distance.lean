import CircuitStages.Proofs.Device.Tree
import Mathlib.Order.Bounds.Basic

namespace CircuitStages

variable {m : CouplingMap} {a b c d e p q start : Nat} {path : List Nat} {t : Trail}

/-- A list of qubits that leads from `a` to `b` along links in either direction. Other than a walk it may meet a qubit
twice, and stand still on a qubit that is linked to itself. -/
structure Leads (m : CouplingMap) (a b : Nat) (path : List Nat) : Prop where
  first : path.head? = some a
  last : path.getLast? = some b
  linked : path.IsChain (fun p q => m.isLinked p q)

namespace Leads

theorem single (m : CouplingMap) (a : Nat) : Leads m a a [a] := ⟨rfl, rfl, List.isChain_singleton a⟩

theorem concat (h : Leads m a b path) (hlink : m.isLinked b q) : Leads m a q (path ++ [q]) := by
  refine ⟨?_, by simp, List.isChain_append.mpr ⟨h.linked, List.isChain_singleton q, ?_⟩⟩
  · rw [List.head?_append, h.first]
    rfl
  · intro x hx y hy
    rw [h.last] at hx
    cases hx
    cases hy
    exact hlink

/-- A path of more than one qubit comes from a shorter one by a last link. -/
theorem exists_of_concat (h : Leads m a b (path ++ [q])) (hpath : path ≠ []) :
    q = b ∧ ∃ p, Leads m a p path ∧ m.isLinked p q := by
  obtain ⟨hlinked, -, hlast⟩ := List.isChain_append.mp h.linked
  have hp := List.getLast?_eq_some_getLast hpath
  refine ⟨by simpa using h.last, path.getLast hpath, ⟨?_, hp, hlinked⟩, hlast _ hp q rfl⟩
  have hfirst := h.first
  rwa [List.head?_append_of_ne_nil _ hpath] at hfirst

theorem symm (h : Leads m a b path) : Leads m b a path.reverse := by
  refine ⟨List.head?_reverse.trans h.last, List.getLast?_reverse.trans h.first, ?_⟩
  rw [List.isChain_reverse]
  exact h.linked.imp fun x y hxy => m.isLinked_comm x y ▸ hxy

/-- Two paths are joined where the first one ends. -/
theorem trans {other : List Nat} (h : Leads m a b path) (hother : Leads m b c other) :
    ∃ joined, Leads m a c joined ∧ joined.length + 1 = path.length + other.length := by
  induction other using List.reverseRecOn generalizing c with
  | nil => cases hother.first
  | append_singleton other q ih =>
    by_cases hne : other = []
    · subst hne
      obtain rfl : q = b := by simpa using hother.first
      obtain rfl : q = c := by simpa using hother.last
      exact ⟨path, h, by simp⟩
    · obtain ⟨rfl, p, hp, hlink⟩ := hother.exists_of_concat hne
      obtain ⟨joined, hjoined, hlength⟩ := ih hp
      exact ⟨joined ++ [q], hjoined.concat hlink, by simp; omega⟩

end Leads

theorem IsWalk.leads (h : IsWalk m a b path) : Leads m a b path := ⟨h.first, h.last, h.linked⟩

theorem Trail.length_path (t : Trail) : t.path.length = t.length + 1 := by
  rw [path, List.length_reverse, List.length_cons, length]

section Search

variable {trails : List Trail} {seen : Array Bool}

theorem seen_of_mem_neighbors (hs : seen.size = m.numQubits) (ht : t ∈ trails) (hq : q ∈ m.neighbors t.last) :
    (nextTrails m.neighbors trails seen).2.getD q false := by
  induction trails generalizing seen with
  | nil => cases ht
  | cons s trails ih =>
    simp only [nextTrails]
    rcases List.mem_cons.mp ht with rfl | ht
    · refine seen_nextTrails _ _ _ _ ?_
      have hlt := (CouplingMap.lt_of_isLinked (CouplingMap.mem_neighbors.mp hq).1).2
      cases hseen : seen.getD q false with
      | true => rw [getD_mark, hseen, Bool.true_or]
      | false =>
        have hfresh : q ∈ (m.neighbors t.last).filter fun q => !seen.getD q false :=
          List.mem_filter.mpr ⟨hq, by rw [hseen]; rfl⟩
        rw [getD_mark, hs, decide_eq_true hlt, List.contains_iff_mem.mpr hfresh, Bool.and_self, Bool.or_true]
    · exact ih (by rw [size_mark, hs]) ht

/-- A round sees nothing but what it leads to. -/
theorem exists_of_seen_nextTrails (h : (nextTrails m.neighbors trails seen).2.getD q false) :
    seen.getD q false ∨ ∃ u ∈ (nextTrails m.neighbors trails seen).1, u.last = q := by
  induction trails generalizing seen with
  | nil => exact .inl h
  | cons s trails ih =>
    simp only [nextTrails] at h ⊢
    rcases ih h with hseen | ⟨u, hu, hlast⟩
    · rw [getD_mark, Bool.or_eq_true, Bool.and_eq_true, List.contains_iff_mem] at hseen
      rcases hseen with hseen | ⟨-, hfresh⟩
      · exact .inl hseen
      · exact .inr ⟨s.extend q, List.mem_append_left _ (List.mem_map_of_mem hfresh), rfl⟩
    · exact .inr ⟨u, List.mem_append_right _ hu, hlast⟩

theorem mem_spread_of_mem {rounds : Nat} (ht : t ∈ trails) : t ∈ spread m.neighbors rounds trails seen := by
  cases rounds with
  | zero => exact ht
  | succ rounds =>
    simp only [spread]
    split
    · exact ht
    · exact List.mem_append_left _ ht

/-- No trail is as long as the device is wide, since trails are walks. -/
theorem eq_nil_of_explored {k : Nat} (h : Explored m start trails seen) (hk : ∀ t ∈ trails, t.length = k)
    (hle : m.numQubits ≤ k) : trails = [] := by
  refine List.eq_nil_iff_forall_not_mem.mpr fun t ht => ?_
  have hlong := (h t ht).1.length_le
  rw [t.length_path, hk t ht] at hlong
  omega

/-- A round leads on by one link. -/
theorem length_of_mem_nextTrails {k : Nat} (hs : seen.size = m.numQubits) (hk : ∀ t ∈ trails, t.length = k) :
    ∀ t ∈ (nextTrails m.neighbors trails seen).1, t.length = k + 1 := by
  intro t ht
  obtain ⟨-, -, s, hs, hext⟩ := (nextTrails_spec trails seen hs).2 t ht
  rw [← hext, ← hk s hs]
  rfl

/-- A search that starts with trails of one length reaches the neighbours of all qubits it reaches, in at most one link
more, if it has rounds enough. -/
theorem exists_of_mem_neighbors_spread {k rounds : Nat} (hs : seen.size = m.numQubits)
    (h : Explored m start trails seen) (hk : ∀ t ∈ trails, t.length = k) (hrounds : m.numQubits ≤ k + rounds)
    (ht : t ∈ spread m.neighbors rounds trails seen) (hq : q ∈ m.neighbors t.last) :
    k ≤ t.length ∧ (seen.getD q false ∨
      ∃ u ∈ spread m.neighbors rounds trails seen, u.last = q ∧ u.length ≤ t.length + 1) := by
  induction rounds generalizing trails seen k with
  | zero =>
    rw [spread, eq_nil_of_explored h hk hrounds] at ht
    cases ht
  | succ rounds ih =>
    have hnextlength := length_of_mem_nextTrails hs hk
    simp only [spread] at ht ⊢
    split at ht
    next hempty =>
      rw [if_pos hempty]
      refine ⟨(hk t ht).ge, ?_⟩
      rcases exists_of_seen_nextTrails (seen_of_mem_neighbors hs ht hq) with hseen | ⟨u, hu, -⟩
      · exact .inl hseen
      · rw [List.isEmpty_iff.mp hempty] at hu
        cases hu
    next hsome =>
      rw [if_neg hsome]
      -- What the round has seen is known to be seen before, or a trail of the round leads there.
      have hround (hseen : (nextTrails m.neighbors trails seen).2.getD q false) (hle : k ≤ t.length) :
          seen.getD q false ∨ ∃ u ∈ trails ++ spread m.neighbors rounds (nextTrails m.neighbors trails seen).1
            (nextTrails m.neighbors trails seen).2, u.last = q ∧ u.length ≤ t.length + 1 := by
        rcases exists_of_seen_nextTrails hseen with hseen | ⟨u, hu, hlast⟩
        · exact .inl hseen
        · have hlength := hnextlength u hu
          exact .inr ⟨u, List.mem_append_right _ (mem_spread_of_mem hu), hlast, by omega⟩
      rcases List.mem_append.mp ht with ht | ht
      · have hle := (hk t ht).ge
        exact ⟨hle, hround (seen_of_mem_neighbors hs ht hq) hle⟩
      · obtain ⟨hle, hfound⟩ := ih (by rw [size_nextTrails, hs]) (explored_nextTrails trails seen hs h) hnextlength
          (by omega) ht
        have hle : k ≤ t.length := Nat.le_of_succ_le hle
        rcases hfound with hseen | ⟨u, hu, hlast, hlength⟩
        · exact ⟨hle, hround hseen hle⟩
        · exact ⟨hle, .inr ⟨u, List.mem_append_right _ hu, hlast, hlength⟩⟩

end Search

namespace CouplingMap

theorem start_mem_trails (h : start < m.numQubits) : ⟨start, []⟩ ∈ m.trails start := by
  rw [trails_eq_spread h]
  exact mem_spread_of_mem (List.mem_singleton_self _)

/-- A search goes on to the neighbours of every qubit it reaches. -/
theorem exists_trail_of_mem_neighbors (ht : t ∈ m.trails start) (hq : q ∈ m.neighbors t.last) :
    ∃ u ∈ m.trails start, u.last = q ∧ u.length ≤ t.length + 1 := by
  have hwalk := isWalk_of_mem_trails ht
  have hstart : start < m.numQubits := hwalk.inRange start (List.mem_of_head? hwalk.first)
  have hroot := start_mem_trails hstart
  rw [trails_eq_spread hstart] at ht hroot ⊢
  obtain ⟨-, hseen | hfound⟩ := exists_of_mem_neighbors_spread (k := 0) (size_marks _ _) (explored_start hstart)
    (by simp [Trail.length]) (by omega) ht hq
  · rw [getD_marks, Bool.and_eq_true, List.contains_iff_mem, List.mem_singleton] at hseen
    exact ⟨_, hroot, hseen.2.symm, Nat.zero_le _⟩
  · exact hfound

/-- Along any path from its start a search finds a trail that is no longer. -/
theorem exists_trail_of_leads (ha : a < m.numQubits) (h : Leads m a b path) :
    ∃ t ∈ m.trails a, t.last = b ∧ t.length + 1 ≤ path.length := by
  induction path using List.reverseRecOn generalizing b with
  | nil => cases h.first
  | append_singleton path q ih =>
    by_cases hne : path = []
    · subst hne
      obtain rfl : q = a := by simpa using h.first
      obtain rfl : q = b := by simpa using h.last
      exact ⟨_, start_mem_trails ha, rfl, by simp [Trail.length]⟩
    · obtain ⟨rfl, p, hp, hlink⟩ := h.exists_of_concat hne
      obtain ⟨t, ht, rfl, hlength⟩ := ih hp
      rw [List.length_append, List.length_singleton]
      by_cases hloop : t.last = q
      · exact ⟨t, ht, hloop, by omega⟩
      · obtain ⟨u, hu, hlast, hle⟩ := exists_trail_of_mem_neighbors ht (mem_neighbors.mpr ⟨hlink, hloop⟩)
        exact ⟨u, hu, hlast, by omega⟩

theorem distance?_eq_some : m.distance? a b = some d ↔ ∃ t ∈ m.trails a, t.last = b ∧ t.length = d := by
  rw [distance?, Option.map_eq_some_iff]
  constructor
  · rintro ⟨t, ht, rfl⟩
    exact ⟨t, List.mem_of_find?_eq_some ht, by simpa using List.find?_some ht, rfl⟩
  · rintro ⟨t, ht, rfl, rfl⟩
    exact ⟨t, trailTo?_of_mem ht, rfl⟩

/-- The distance is the least number of links on a path between two qubits of the map. -/
theorem distance?_eq_some_iff : m.distance? a b = some d ↔ a < m.numQubits ∧ b < m.numQubits ∧
    IsLeast {k | ∃ path, Leads m a b path ∧ path.length = k + 1} d := by
  rw [distance?_eq_some]
  constructor
  · rintro ⟨t, ht, rfl, rfl⟩
    have hwalk := isWalk_of_mem_trails ht
    have ha := hwalk.inRange a (List.mem_of_head? hwalk.first)
    refine ⟨ha, hwalk.inRange _ (List.mem_of_getLast? hwalk.last), ⟨_, hwalk.leads, t.length_path⟩, ?_⟩
    rintro k ⟨path, hpath, hlength⟩
    obtain ⟨u, hu, hlast, hle⟩ := exists_trail_of_leads ha hpath
    have heq := eq_of_nodup_map (m.trails_spec a).1 hu ht hlast
    rw [← heq]
    omega
  · rintro ⟨ha, -, ⟨path, hpath, hlength⟩, hleast⟩
    obtain ⟨t, ht, hlast, hle⟩ := exists_trail_of_leads ha hpath
    have hwalk := isWalk_of_mem_trails ht
    rw [hlast] at hwalk
    exact ⟨t, ht, hlast, Nat.le_antisymm (by omega) (hleast ⟨_, hwalk.leads, t.length_path⟩)⟩

/-- Whether two qubits are in the same part of the map. A qubit outside the map is in a part of its own. -/
def Joined (m : CouplingMap) (a b : Nat) : Prop := ∃ path, Leads m a b path

namespace Joined

theorem refl (m : CouplingMap) (a : Nat) : m.Joined a a := ⟨[a], .single m a⟩

theorem symm (h : m.Joined a b) : m.Joined b a := h.imp' List.reverse fun _ hpath => hpath.symm

theorem trans (hab : m.Joined a b) (hbc : m.Joined b c) : m.Joined a c := by
  obtain ⟨path, hpath⟩ := hab
  obtain ⟨other, hother⟩ := hbc
  obtain ⟨joined, hjoined, -⟩ := hpath.trans hother
  exact ⟨joined, hjoined⟩

theorem of_isLinked (h : m.isLinked a b) : m.Joined a b := ⟨_, (Leads.single m a).concat h⟩

/-- Different qubits are joined by links, so they are on the map. -/
theorem lt (h : m.Joined a b) (hne : a ≠ b) : b < m.numQubits := by
  obtain ⟨path, hpath⟩ := h
  induction path using List.reverseRecOn with
  | nil => cases hpath.first
  | append_singleton path q _ =>
    by_cases hnil : path = []
    · subst hnil
      have hqa : q = a := by simpa using hpath.first
      have hqb : q = b := by simpa using hpath.last
      exact absurd (hqa.symm.trans hqb) hne
    · obtain ⟨rfl, p, -, hlink⟩ := hpath.exists_of_concat hnil
      exact (lt_of_isLinked hlink).2

end Joined

theorem isSome_distance?_iff : (m.distance? a b).isSome ↔ a < m.numQubits ∧ b < m.numQubits ∧ m.Joined a b := by
  rw [Option.isSome_iff_exists]
  constructor
  · rintro ⟨d, hd⟩
    obtain ⟨ha, hb, ⟨path, hpath, -⟩, -⟩ := distance?_eq_some_iff.mp hd
    exact ⟨ha, hb, path, hpath⟩
  · rintro ⟨ha, -, path, hpath⟩
    obtain ⟨t, ht, hlast, -⟩ := exists_trail_of_leads ha hpath
    exact ⟨_, distance?_eq_some.mpr ⟨t, ht, hlast, rfl⟩⟩

theorem Joined.exists_distance? (h : m.Joined a b) (hne : a ≠ b) : ∃ d, m.distance? a b = some d :=
  Option.isSome_iff_exists.mp (isSome_distance?_iff.mpr ⟨h.symm.lt hne.symm, h.lt hne, h⟩)

/-- The table of distances answers for all qubits, on the map or not. -/
theorem getD_distances (m : CouplingMap) (a b : Nat) : (m.distances.getD a #[]).getD b none = m.distance? a b := by
  have hrow {a : Nat} (ha : a < m.numQubits) :
      m.distances.getD a #[] = (trailRow m.numQubits (m.trails a)).map (·.map (·.length)) := by
    rw [distances, Array.getD_eq_getD_getElem?, Array.getElem?_map, m.getElem?_trailTable ha]
    rfl
  by_cases hin : a < m.numQubits ∧ b < m.numQubits
  · rw [hrow hin.1, Array.getD_eq_getD_getElem?, Array.getElem?_map, getElem?_trailRow _ hin.2]
    rfl
  · have hnone : m.distance? a b = none := by
      rw [← Option.not_isSome_iff_eq_none, isSome_distance?_iff]
      exact fun h => hin ⟨h.1, h.2.1⟩
    rw [hnone]
    by_cases ha : a < m.numQubits
    · have hb : m.numQubits ≤ b := Nat.le_of_not_lt fun hb => hin ⟨ha, hb⟩
      have hsize : ((trailRow m.numQubits (m.trails a)).map (·.map (·.length))).size ≤ b := by
        rwa [Array.size_map, size_trailRow]
      rw [hrow ha, Array.getD_eq_getD_getElem?, Array.getElem?_eq_none hsize]
      rfl
    · have hsize : m.distances.size ≤ a := by
        rw [distances, Array.size_map, m.size_trailTable]
        exact Nat.le_of_not_lt ha
      rw [Array.getD_eq_getD_getElem? (i := a), Array.getElem?_eq_none hsize]
      rfl

theorem distance?_comm (m : CouplingMap) (a b : Nat) : m.distance? a b = m.distance? b a := by
  refine Option.ext fun d => ?_
  have hflip (a b : Nat) (h : m.distance? a b = some d) : m.distance? b a = some d := by
    obtain ⟨ha, hb, ⟨path, hpath, hlength⟩, hleast⟩ := distance?_eq_some_iff.mp h
    refine distance?_eq_some_iff.mpr ⟨hb, ha, ⟨_, hpath.symm, by rw [List.length_reverse, hlength]⟩, ?_⟩
    rintro k ⟨other, hother, hk⟩
    exact hleast ⟨_, hother.symm, by rw [List.length_reverse, hk]⟩
  exact ⟨hflip a b, hflip b a⟩

/-- The triangle inequality, where the two distances on its right are finite. -/
theorem exists_distance?_le (hab : m.distance? a b = some d) (hbc : m.distance? b c = some e) :
    ∃ f ≤ d + e, m.distance? a c = some f := by
  obtain ⟨ha, -, ⟨path, hpath, hd⟩, -⟩ := distance?_eq_some_iff.mp hab
  obtain ⟨-, -, ⟨other, hother, he⟩, -⟩ := distance?_eq_some_iff.mp hbc
  obtain ⟨joined, hjoined, hlength⟩ := hpath.trans hother
  obtain ⟨t, ht, hlast, hle⟩ := exists_trail_of_leads ha hjoined
  exact ⟨t.length, by omega, distance?_eq_some.mpr ⟨t, ht, hlast, rfl⟩⟩

/-- Distances depend on the qubits and on which of them are linked, not on the directions of links. -/
theorem distance?_congr {m' : CouplingMap} (hsize : m.numQubits = m'.numQubits)
    (hlinks : ∀ p q, m.isLinked p q = m'.isLinked p q) (a b : Nat) : m.distance? a b = m'.distance? a b := by
  have hleads (path : List Nat) : Leads m a b path ↔ Leads m' a b path := by
    constructor
    · exact fun h => ⟨h.first, h.last, h.linked.imp fun p q hpq => hlinks p q ▸ hpq⟩
    · exact fun h => ⟨h.first, h.last, h.linked.imp fun p q hpq => hlinks p q ▸ hpq⟩
  refine Option.ext fun d => ?_
  simp only [distance?_eq_some_iff, hleads, hsize]

theorem distance?_symmetrize (m : CouplingMap) (a b : Nat) : m.symmetrize.distance? a b = m.distance? a b :=
  distance?_congr m.numQubits_symmetrize m.isLinked_symmetrize a b

/-- A shortest path is a walk with as many links as the distance says. -/
theorem isWalk_and_distance?_of_shortestPath? (h : m.shortestPath? a b = some path) :
    IsWalk m a b path ∧ ∃ d, m.distance? a b = some d ∧ path.length = d + 1 := by
  obtain ⟨t, ht, rfl⟩ := Option.map_eq_some_iff.mp h
  exact ⟨isWalk_of_shortestPath? h, t.length, by rw [distance?, ht]; rfl, t.length_path⟩

theorem isSome_shortestPath? (m : CouplingMap) (a b : Nat) :
    (m.shortestPath? a b).isSome = (m.distance? a b).isSome := by
  rw [shortestPath?, distance?, Option.isSome_map, Option.isSome_map]

theorem Joined.exists_shortestPath? (h : m.Joined a b) (hne : a ≠ b) : ∃ path, m.shortestPath? a b = some path := by
  obtain ⟨d, hd⟩ := h.exists_distance? hne
  rw [← Option.isSome_iff_exists, isSome_shortestPath?, hd, Option.isSome_some]

end CouplingMap

end CircuitStages
