import CircuitStages.Proofs.Circuit.Checks
import CircuitStages.Proofs.Except
import CircuitStages.Proofs.Mapping.Replay
import CircuitStages.Proofs.Pass.Runs

namespace CircuitStages

variable {α : Type}

/-- Swaps between pairs of positions, followed by an instruction on positions. -/
def routedBlock (b : List (Nat × Nat) × Instruction α) : List (RouteStep α) :=
  b.1.map (fun e => .inserted e.1 e.2) ++ [.routed b.2]

namespace RouteState

variable {m : CouplingMap} {n : Nat} {s t : RouteState α}

/-- One turn of basic routing: swaps between linked positions, after which the instruction is not blocked and goes
out. -/
theorem exists_swaps_of_routeNext {i : Instruction α} (h : s.routeNext m i = .ok t) (hs : Tracks n s)
    (hlt : ∀ q ∈ i.qubits, q < n) (hnd : i.qubits.Nodup) :
    ∃ es, t = (s.swaps es).emit i ∧ (∀ e ∈ es, m.isLinked e.1 e.2) ∧ (s.swaps es).blocked? m i = none := by
  rw [routeNext] at h
  cases hb : s.blocked? m i with
  | none =>
    simp only [hb, pure_bind, pure_eq_ok] at h
    exact ⟨[], h.symm, by simp, hb⟩
  | some e =>
    simp only [hb, bind_eq_ok, pure_eq_ok] at h
    obtain ⟨u, hu, rfl⟩ := h
    obtain ⟨es, rfl, hes⟩ := exists_swaps_of_walk hu
    exact ⟨es, rfl, hes, hs.blocked?_walk hlt hnd hb hu⟩

/-- What a run of basic routing over some instructions adds to a routing state. -/
theorem blocks_of_foldlM_routeNext {is : List (Instruction α)} (h : is.foldlM (routeNext m) s = .ok t)
    (hs : Tracks n s) (hlt : ∀ i ∈ is, ∀ q ∈ i.qubits, q < n) (hnd : ∀ i ∈ is, i.qubits.Nodup) :
    Tracks n t ∧ t.emitted = s.emitted ++ is ∧ (Adjacent m s → Adjacent m t) ∧
      ∃ blocks, t.steps.reverse = s.steps.reverse ++ List.flatMap routedBlock blocks := by
  induction is generalizing s with
  | nil =>
    rw [List.foldlM_nil, pure_eq_ok] at h
    subst h
    exact ⟨hs, by simp, id, [], by simp⟩
  | cons i is ih =>
    rw [List.foldlM_cons, bind_eq_ok] at h
    obtain ⟨u, hu, h⟩ := h
    have hi : ∀ q ∈ i.qubits, q < n := hlt i List.mem_cons_self
    obtain ⟨es, rfl, hes, hfree⟩ := exists_swaps_of_routeNext hu hs hi (hnd i List.mem_cons_self)
    have hmid := hs.swaps es
    obtain ⟨htracks, hemitted, hadjacent, blocks, hblocks⟩ := ih h (hmid.emit i)
      (fun j hj => hlt j (List.mem_cons_of_mem _ hj)) (fun j hj => hnd j (List.mem_cons_of_mem _ hj))
    refine ⟨htracks, ?_, fun ha => hadjacent ((ha.swaps hes).emit hfree), ?_⟩
    · rw [hemitted, hmid.emitted_emit i hi, emitted_swaps, List.append_assoc]
      rfl
    · refine ⟨(es, i.onQubits (i.qubits.map (s.swaps es).position)) :: blocks, ?_⟩
      rw [hblocks, List.flatMap_cons, routedBlock, emit, List.reverse_cons, steps_swaps]
      simp only [List.append_assoc]

end RouteState

/-- A basic routing pass keeps the program: replaying its result from wires at their own positions gives the
instructions back in their order, and every virtual qubit ends where its wire ends. -/
theorem readBack_basicRouting {m : CouplingMap} {c out : Circuit Float} (hc : c.WellFormed)
    (h : (Pass.basicRouting (some m)).run c = .success out) :
    ∃ (blocks : List (List (Nat × Nat) × Instruction Float)) (l : Layout),
      out.instructions = (blocks.flatMap routedBlock).map RouteStep.toInstruction ∧
      readBack 1 (blocks.flatMap routedBlock) = c.instructions ∧
      out.finalLayout = some l ∧
      ∀ v, l.physical? v = ((c.widen m).initialLayout.physical? v).map (wiresAfter 1 (blocks.flatMap routedBlock)) := by
  rw [Pass.run, routeOn, Outcome.ofRoute_eq_success] at h
  obtain ⟨s, hs, rfl⟩ := h
  have hlt := hc.qubits_lt_widen m
  obtain ⟨htracks, hemitted, -, blocks, hblocks⟩ :=
    RouteState.blocks_of_foldlM_routeNext hs (RouteState.tracks_start _) hlt hc.qubits_nodup
  have hsteps : s.steps.reverse = blocks.flatMap routedBlock := hblocks
  obtain ⟨l, hl, hfinal⟩ := hc.physical?_finishRoute htracks
  refine ⟨blocks, l, ?_, ?_, hl, ?_⟩
  · rw [← hsteps]
    rfl
  · rw [← hsteps]
    exact hemitted
  · rw [← hsteps]
    exact hfinal

theorem readBack_basicRouting_ghz : (Circuit.ghz 3 : Circuit Float).WellFormed ∧
    ∃ out, (Pass.basicRouting (some (.star 3))).run (.ghz 3) = .success out ∧
    ∃ (blocks : List (List (Nat × Nat) × Instruction Float)) (l : Layout),
      out.instructions = (blocks.flatMap routedBlock).map RouteStep.toInstruction ∧
      readBack 1 (blocks.flatMap routedBlock) = (Circuit.ghz 3).instructions ∧
      out.finalLayout = some l ∧
      ∀ v, l.physical? v =
        (((Circuit.ghz 3 : Circuit Float).widen (.star 3)).initialLayout.physical? v).map
          (wiresAfter 1 (blocks.flatMap routedBlock)) := by
  have hok : ((Pass.basicRouting (some (.star 3))).run (.ghz 3)).isFailure = false := by decide +kernel
  have hrun := Outcome.eq_success_of_not_isFailure hok
  exact ⟨Circuit.wellFormed_ghz 3, _, hrun, readBack_basicRouting (Circuit.wellFormed_ghz 3) hrun⟩

end CircuitStages
