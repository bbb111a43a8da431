import CircuitStages.Proofs.Device.Trails

namespace CircuitStages

variable {m : CouplingMap} {start : Nat} {trails : List Trail} {seen : Array Bool} {t : Trail}

/-- A round leads on from trails at hand to different qubits that have not been seen, and sees them. -/
theorem nextTrails_spec (trails : List Trail) (seen : Array Bool) (hs : seen.size = m.numQubits) :
    ((nextTrails m.neighbors trails seen).1.map (·.last)).Nodup ∧
      ∀ t ∈ (nextTrails m.neighbors trails seen).1, seen.getD t.last false = false ∧
        (nextTrails m.neighbors trails seen).2.getD t.last false = true ∧ ∃ s ∈ trails, s.extend t.last = t := by
  induction trails generalizing seen with
  | nil => simp [nextTrails]
  | cons s trails ih =>
    let fresh := (m.neighbors s.last).filter fun q => !seen.getD q false
    obtain ⟨hnd, hnext⟩ := ih (mark seen fresh) (by rw [size_mark, hs])
    have hmarked (q : Nat) (hq : q ∈ fresh) : (mark seen fresh).getD q false = true := by
      have hlt := (CouplingMap.lt_of_isLinked (CouplingMap.mem_neighbors.mp (List.mem_of_mem_filter hq)).1).2
      rw [getD_mark, hs, decide_eq_true hlt, List.contains_iff_mem.mpr hq, Bool.and_self, Bool.or_true]
    have hfresh : (fresh.map s.extend).map (·.last) = fresh := by simp [Trail.extend, Function.comp_def]
    simp only [nextTrails]
    constructor
    · rw [List.map_append, hfresh]
      refine List.nodup_append.mpr ⟨(nodup_ascendingNats _).filter _, hnd, fun q hq p hp hqp => ?_⟩
      obtain ⟨t, ht, rfl⟩ := List.mem_map.mp hp
      have hunseen := (hnext t ht).1
      rw [← hqp, hmarked q hq] at hunseen
      cases hunseen
    · intro t ht
      rcases List.mem_append.mp ht with ht | ht
      · obtain ⟨q, hq, rfl⟩ := List.mem_map.mp ht
        have hunseen : seen.getD q false = false := by simpa using (List.mem_filter.mp hq).2
        exact ⟨hunseen, seen_nextTrails _ _ _ _ (hmarked q hq), s, List.mem_cons_self, rfl⟩
      · obtain ⟨hunseen, hseen, u, hu, hext⟩ := hnext t ht
        rw [getD_mark, Bool.or_eq_false_iff] at hunseen
        exact ⟨hunseen.1, hseen, u, List.mem_cons_of_mem _ hu, hext⟩

theorem spread_spec (rounds : Nat) (trails : List Trail) (seen : Array Bool) (hs : seen.size = m.numQubits)
    (hnd : (trails.map (·.last)).Nodup) (hseen : ∀ t ∈ trails, seen.getD t.last false = true) :
    ((spread m.neighbors rounds trails seen).map (·.last)).Nodup ∧
      ∀ t ∈ spread m.neighbors rounds trails seen, t ∈ trails ∨ (seen.getD t.last false = false ∧
        ∃ s ∈ spread m.neighbors rounds trails seen, s.extend t.last = t) := by
  induction rounds generalizing trails seen with
  | zero => exact ⟨hnd, fun t ht => .inl ht⟩
  | succ rounds ih =>
    obtain ⟨hndnext, hnext⟩ := nextTrails_spec trails seen hs
    obtain ⟨hndrest, hrest⟩ := ih _ _ (by rw [size_nextTrails, hs]) hndnext fun t ht => (hnext t ht).2.1
    simp only [spread]
    split
    · exact ⟨hnd, fun t ht => .inl ht⟩
    · have hunseen (t : Trail) (ht : t ∈ spread m.neighbors rounds (nextTrails m.neighbors trails seen).1
          (nextTrails m.neighbors trails seen).2) : seen.getD t.last false = false := by
        rcases hrest t ht with ht | ⟨hlater, -⟩
        · exact (hnext t ht).1
        · by_contra hseen
          rw [seen_nextTrails _ _ _ _ (by simpa using hseen)] at hlater
          cases hlater
      constructor
      · rw [List.map_append]
        refine List.nodup_append.mpr ⟨hnd, hndrest, fun p hp q hq hpq => ?_⟩
        obtain ⟨s, hs, rfl⟩ := List.mem_map.mp hp
        obtain ⟨t, ht, rfl⟩ := List.mem_map.mp hq
        have heq := hunseen t ht
        rw [← hpq, hseen s hs] at heq
        cases heq
      · intro t ht
        rcases List.mem_append.mp ht with ht | ht
        · exact .inl ht
        · refine .inr ⟨hunseen t ht, ?_⟩
          rcases hrest t ht with hin | ⟨-, s, hs, hext⟩
          · obtain ⟨-, -, s, hs, hext⟩ := hnext t hin
            exact ⟨s, List.mem_append_left _ hs, hext⟩
          · exact ⟨s, List.mem_append_right _ hs, hext⟩

/-- Among trails to different qubits each one is found by its last qubit. -/
theorem trailTo?_eq_some {found : List Trail} (hnd : (found.map (·.last)).Nodup) (ht : t ∈ found) :
    trailTo? found t.last = some t := by
  have hfound : (trailTo? found t.last).isSome := List.find?_isSome.mpr ⟨t, ht, beq_self_eq_true _⟩
  obtain ⟨s, hs⟩ := Option.isSome_iff_exists.mp hfound
  have hlast : s.last = t.last := by simpa using List.find?_some hs
  rw [hs, eq_of_nodup_map hnd (List.mem_of_find?_eq_some hs) ht hlast]

namespace CouplingMap

theorem trails_spec (m : CouplingMap) (start : Nat) : ((m.trails start).map (·.last)).Nodup ∧
    ∀ t ∈ m.trails start, t = ⟨start, []⟩ ∨ ∃ s ∈ m.trails start, s.extend t.last = t := by
  rw [trails_eq, trailsAlong]
  split
  next h =>
    have hseen : (marks m.numQubits [start]).getD start false = true := by rw [getD_marks]; simp [h]
    obtain ⟨hnd, hfound⟩ := spread_spec m.numQubits [⟨start, []⟩] _ (size_marks _ [start]) (List.nodup_singleton start)
      (by simpa using hseen)
    exact ⟨hnd, fun t ht => (hfound t ht).imp List.mem_singleton.mp And.right⟩
  next => exact ⟨List.nodup_nil, List.forall_mem_nil _⟩

theorem trailTo?_of_mem (ht : t ∈ m.trails start) : trailTo? (m.trails start) t.last = some t :=
  trailTo?_eq_some (m.trails_spec start).1 ht

theorem mem_trails_of_mem {q p : Nat} {earlier : List Nat} (ht : ⟨q, p :: earlier⟩ ∈ m.trails start) :
    ⟨p, earlier⟩ ∈ m.trails start := by
  rcases (m.trails_spec start).2 _ ht with hstart | ⟨s, hs, hext⟩
  · cases hstart
  · cases hext
    exact hs

end CouplingMap

end CircuitStages
