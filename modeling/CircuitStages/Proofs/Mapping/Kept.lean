import CircuitStages.Proofs.Circuit.Checks
import CircuitStages.Proofs.Mapping.Lookahead

namespace CircuitStages

variable {α : Type} {m : CouplingMap} {n : Nat} {is : List (Instruction α)} {s t : RouteState α}

/-- The swaps along a walk exchange different positions. -/
theorem RouteState.ne_of_mem_pathSwaps {path : List Nat} (h : path.Nodup) : ∀ e ∈ pathSwaps path, e.1 ≠ e.2 := by
  fun_induction pathSwaps path with
  | case1 a b c rest ih =>
    obtain ⟨ha, hrest⟩ := List.nodup_cons.mp h
    intro e he
    rcases List.mem_cons.mp he with rfl | he
    · exact List.ne_of_not_mem_cons ha
    · exact ih hrest e he
  | case2 => simp

theorem RouteProblem.ne_of_bestSwap {decay : Array Float} {front : List Nat} {first : Instruction α} {e : Nat × Nat}
    (h : (ofInstructions m n is).bestSwap s decay front first = .ok e) : e.1 ≠ e.2 := by
  obtain ⟨p, q, hq, rfl⟩ := exists_of_mem_candidates (mem_candidates_of_bestSwap h)
  have hne := (CouplingMap.mem_neighbors.mp hq).2
  dsimp only
  omega

section Invariant

-- A property of routing states that the steps of routing keep.

variable {P : RouteState α → Prop} (hemit : ∀ s, P s → ∀ i ∈ is, P (s.emit i))
  (hswap : ∀ s, P s → ∀ a b, m.isLinked a b → a ≠ b → P (s.swap a b))

include hswap in
theorem invariant_walk {name : String} {a b : Nat} (hs : P s) (h : s.walk m name a b = .ok t) : P t := by
  have along (es : List (Nat × Nat)) (hes : ∀ e ∈ es, m.isLinked e.1 e.2 ∧ e.1 ≠ e.2) (s : RouteState α) (hs : P s) :
      P (s.swaps es) := by
    induction es generalizing s with
    | nil => exact hs
    | cons e es ih =>
      obtain ⟨⟨hlinked, hne⟩, hrest⟩ := List.forall_mem_cons.mp hes
      exact ih hrest _ (hswap s hs e.1 e.2 hlinked hne)
  rw [RouteState.walk] at h
  split at h
  next path hpath =>
    cases h
    have walk := isWalk_of_shortestPath? hpath
    rw [RouteState.swapAlong_eq]
    refine along _ (fun e he => ⟨?_, ?_⟩) s hs
    · exact RouteState.isLinked_pathSwaps walk.linked e he
    · exact RouteState.ne_of_mem_pathSwaps walk.nodup e he
  next => cases h

include hemit hswap

theorem invariant_routeBasic (hs : P (.start n)) (h : routeBasic m n is = .ok t) : P t := by
  have turns (js : List (Instruction α)) (hjs : ∀ j ∈ js, j ∈ is) (s : RouteState α) (hs : P s)
      (h : js.foldlM (RouteState.routeNext m) s = .ok t) : P t := by
    induction js generalizing s with
    | nil =>
      cases pure_eq_ok.mp h
      exact hs
    | cons j js ih =>
      obtain ⟨hj, hrest⟩ := List.forall_mem_cons.mp hjs
      rw [List.foldlM_cons, bind_eq_ok] at h
      obtain ⟨u, hu, h⟩ := h
      refine ih hrest u ?_ h
      rw [RouteState.routeNext] at hu
      cases hb : s.blocked? m j with
      | none =>
        simp only [hb, pure_bind, pure_eq_ok] at hu
        exact hu ▸ hemit s hs j hj
      | some e =>
        simp only [hb, bind_eq_ok, pure_eq_ok] at hu
        obtain ⟨v, hv, rfl⟩ := hu
        exact hemit v (invariant_walk hswap hs hv) j hj
  exact turns is (fun _ hi => hi) _ hs h

omit hswap in
theorem invariant_release (rounds : Nat) (waiting : List Nat) (hs : P s) :
    P ((RouteProblem.ofInstructions m n is).release rounds s waiting).1 := by
  induction rounds generalizing s waiting with
  | zero => exact hs
  | succ rounds ih =>
    simp only [RouteProblem.release]
    split
    · exact hs
    · refine ih _ ?_
      have hpicked : ∀ i ∈ (Dependencies.ofInstructions is).pick ((RouteProblem.ofInstructions m n is).due s
          ((RouteProblem.ofInstructions m n is).dependencies.front waiting)), i ∈ is := by
        intro i hi
        obtain ⟨k, -, hk⟩ := mem_pick.mp hi
        exact List.mem_of_getElem? hk
      exact List.foldlRecOn _ _ hs fun s hs i hi => hemit s hs i (hpicked i hi)

omit hemit in
theorem invariant_unblock {front : List Nat} {first : Instruction α} {patience : Nat} {decay : Array Float} (hs : P s)
    (h : (RouteProblem.ofInstructions m n is).unblock front first patience decay s = .ok t) : P t := by
  induction patience generalizing s decay with
  | zero =>
    rw [RouteProblem.unblock] at h
    split at h
    · exact invariant_walk hswap hs h
    · cases h
      exact hs
  | succ patience ih =>
    rw [RouteProblem.unblock, bind_eq_ok] at h
    obtain ⟨e, he, h⟩ := h
    have hnext := hswap s hs e.1 e.2 (RouteProblem.isLinked_of_bestSwap he) (RouteProblem.ne_of_bestSwap he)
    dsimp only at h
    split at h
    · exact ih hnext h
    · cases pure_eq_ok.mp h
      exact hnext

theorem invariant_routeLookahead (hs : P (.start n)) (h : routeLookahead m n is = .ok t) : P t := by
  have turns (turns : Nat) (s : RouteState α) (waiting : List Nat) (hs : P s)
      (h : (RouteProblem.ofInstructions m n is).run turns s waiting = .ok t) : P t := by
    induction turns generalizing s waiting with
    | zero =>
      cases h
      exact hs
    | succ turns ih =>
      have hreleased := invariant_release (m := m) (n := n) hemit waiting.length waiting hs
      rw [RouteProblem.run] at h
      dsimp only at h
      split at h
      · cases h
        exact hreleased
      · obtain ⟨u, hu, h⟩ := bind_eq_ok.mp h
        exact ih u _ (invariant_unblock hswap hreleased hu) h
  exact turns _ _ _ hs h

end Invariant

/-- Routing in progress whose steps all fit the circuit, with every wire inside it. -/
structure RouteState.FitsIn (c : Circuit α) (s : RouteState α) : Prop where
  tracks : s.Tracks c.numQubits
  position_lt : ∀ v < c.numQubits, s.position v < c.numQubits
  fits : ∀ st ∈ s.steps, c.Fits st.toInstruction

namespace RouteState

variable {c : Circuit α}

theorem fitsIn_start : FitsIn c (.start c.numQubits : RouteState α) := by
  refine ⟨tracks_start _, fun v hv => ?_, by simp [start]⟩
  rwa [(tracks_start c.numQubits).position_eq hv]

theorem FitsIn.emit (h : FitsIn c s) {i : Instruction α} (hi : c.Fits i) : FitsIn c (s.emit i) := by
  refine ⟨h.tracks.emit i, h.position_lt, fun st hst => ?_⟩
  rcases List.mem_cons.mp hst with rfl | hst
  · refine ⟨fun q hq => ?_, hi.clbits_lt, ?_, fun hname => ?_⟩
    · obtain ⟨v, hv, rfl⟩ := List.mem_map.mp hq
      exact h.position_lt v (hi.qubits_lt v hv)
    · refine List.Nodup.map_on (fun v hv w hw heq => ?_) hi.qubits_nodup
      by_contra hne
      exact h.tracks.position_ne (hi.qubits_lt v hv) (hi.qubits_lt w hw) hne heq
    · have hwidth := hi.width_eq_one hname
      simpa [Instruction.width, RouteStep.toInstruction, Instruction.onQubits] using hwidth
  · exact h.fits st hst

theorem FitsIn.swap (h : FitsIn c s) {a b : Nat} (ha : a < c.numQubits) (hb : b < c.numQubits) (hab : a ≠ b) :
    FitsIn c (s.swap a b) := by
  refine ⟨h.tracks.swap a b, fun v hv => ?_, fun st hst => ?_⟩
  · have hlt := h.position_lt v hv
    rw [h.tracks.position_swap a b hv, Equiv.swap_apply_def]
    split_ifs
    · exact hb
    · exact ha
    · exact hlt
  · rcases List.mem_cons.mp hst with rfl | hst
    · exact Circuit.fits_gate_two ha hb hab (by decide)
    · exact h.fits st hst

end RouteState

namespace Circuit

variable {c : Circuit α}

theorem WellFormed.widen (hc : c.WellFormed) (m : CouplingMap) : (c.widen m).WellFormed := by
  have hwide : c.numQubits ≤ (c.widen m).numQubits := Nat.le_max_left _ _
  refine ⟨hc.qubits_lt_widen m, hc.clbits_lt, hc.qubits_nodup, hc.width_eq_one, fun l hl e he => ?_,
    fun l hl e he => ?_, hc.startTimes_length⟩
  · obtain ⟨hv, hp⟩ := hc.layout_lt l hl e he
    exact ⟨hv.trans_le hwide, hp.trans_le hwide⟩
  · obtain ⟨hv, hp⟩ := hc.finalLayout_lt l hl e he
    exact ⟨hv.trans_le hwide, hp.trans_le hwide⟩

theorem WellFormed.lt_of_mem_initialLayout (hc : c.WellFormed) {e : Nat × Nat} (he : e ∈ c.initialLayout.pairs) :
    e.1 < c.numQubits ∧ e.2 < c.numQubits := by
  rw [initialLayout] at he
  cases hl : c.layout with
  | none =>
    rw [hl] at he
    exact Layout.lt_of_mem_trivial he
  | some l =>
    rw [hl] at he
    exact hc.layout_lt l (by simp [hl]) e he

/-- A finished run leaves a well-formed circuit with the final placement inside it. -/
theorem WellFormed.finishRoute (hc : c.WellFormed) (hs : s.FitsIn c) : (c.finishRoute s).WellFormed := by
  have hrouted : ∀ i ∈ s.steps.reverse.map (·.toInstruction), c.Fits i := by
    intro i hi
    obtain ⟨st, hst, rfl⟩ := List.mem_map.mp hi
    exact hs.fits st (List.mem_reverse.mp hst)
  have hbase := hc.withInstructions hrouted
  refine ⟨hbase.qubits_lt, hbase.clbits_lt, hbase.qubits_nodup, hbase.width_eq_one, hbase.layout_lt, ?_, nofun⟩
  intro l hl e he
  cases hl
  obtain ⟨d, hd, rfl⟩ := List.mem_map.mp (Layout.mem_of_mem_ofPairs he)
  obtain ⟨hv, hp⟩ := hc.lt_of_mem_initialLayout hd
  exact ⟨hv, hs.position_lt d.2 hp⟩

theorem WellFormed.keepPlacement (hc : c.WellFormed) : c.keepPlacement.WellFormed := by
  refine ⟨hc.qubits_lt, hc.clbits_lt, hc.qubits_nodup, hc.width_eq_one, hc.layout_lt, fun l hl => ?_,
    hc.startTimes_length⟩
  cases hlayout : c.layout with
  | none =>
    have hfinal : l ∈ c.finalLayout := by simpa [Circuit.keepPlacement, hlayout] using hl
    exact hc.finalLayout_lt l hfinal
  | some k =>
    have hkept : l ∈ c.layout := by simpa [Circuit.keepPlacement, hlayout] using hl
    exact hc.layout_lt l hkept

/-- A router that succeeds on a widened circuit leaves steps that fit it. -/
theorem WellFormed.fitsIn_routeBasic (hc : c.WellFormed) (hm : m.numQubits ≤ c.numQubits)
    (h : routeBasic m c.numQubits c.instructions = .ok s) : s.FitsIn c := by
  refine invariant_routeBasic (fun s hs i hi => hs.emit (hc.fits hi)) (fun s hs a b hab hne => ?_)
    RouteState.fitsIn_start h
  obtain ⟨ha, hb⟩ := CouplingMap.lt_of_isLinked hab
  exact hs.swap (ha.trans_le hm) (hb.trans_le hm) hne

theorem WellFormed.fitsIn_routeLookahead (hc : c.WellFormed) (hm : m.numQubits ≤ c.numQubits)
    (h : routeLookahead m c.numQubits c.instructions = .ok s) : s.FitsIn c := by
  refine invariant_routeLookahead (fun s hs i hi => hs.emit (hc.fits hi)) (fun s hs a b hab hne => ?_)
    RouteState.fitsIn_start h
  obtain ⟨ha, hb⟩ := CouplingMap.lt_of_isLinked hab
  exact hs.swap (ha.trans_le hm) (hb.trans_le hm) hne

end Circuit

end CircuitStages
