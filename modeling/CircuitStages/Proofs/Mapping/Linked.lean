import CircuitStages.Proofs.Mapping.Basic
import CircuitStages.Proofs.Mapping.Lookahead
import CircuitStages.Proofs.Rewrite.Links

namespace CircuitStages

variable {m : CouplingMap} {c out : Circuit Float}

theorem RouteState.Adjacent.allLinks {s : RouteState Float} (h : s.Adjacent m) :
    AllLinks (fun _ a b => m.isLinked a b) (c.finishRoute s).instructions := by
  intro i hi a b hl
  obtain ⟨st, hst, rfl⟩ := List.mem_map.mp hi
  exact h st (List.mem_reverse.mp hst) a b hl

theorem linked_basicRouting (hc : c.WellFormed) (h : (Pass.basicRouting (some m)).run c = .success out) :
    out.numQubits = max c.numQubits m.numQubits ∧ AllLinks (fun _ a b => m.isLinked a b) out.instructions := by
  rw [Pass.run, routeOn, Outcome.ofRoute_eq_success] at h
  obtain ⟨s, hs, rfl⟩ := h
  obtain ⟨-, -, hadjacent, -⟩ := RouteState.blocks_of_foldlM_routeNext hs (RouteState.tracks_start _)
    (hc.qubits_lt_widen m) hc.qubits_nodup
  exact ⟨rfl, (hadjacent (RouteState.adjacent_start m _)).allLinks⟩

theorem linked_lookaheadRouting (hc : c.WellFormed) (h : (Pass.lookaheadRouting (some m)).run c = .success out) :
    out.numQubits = max c.numQubits m.numQubits ∧ AllLinks (fun _ a b => m.isLinked a b) out.instructions := by
  rw [Pass.run, routeOn, Outcome.ofRoute_eq_success] at h
  obtain ⟨s, hs, rfl⟩ := h
  obtain ⟨order, waiting, hreaches, -⟩ := reaches_of_routeLookahead (hc.qubits_lt_widen m) hc.qubits_nodup hs
  exact ⟨rfl, hreaches.adjacent.allLinks⟩

theorem Circuit.firstUnrouted?_eq_none_iff :
    c.firstUnrouted? m = none ↔ AllLinks (fun _ a b => m.isLinked a b) c.instructions := by
  rw [firstUnrouted?, List.findSome?_eq_none_iff]
  refine forall_congr' fun i => imp_congr_right fun _ => ?_
  cases i.link? with
  | none => simp
  | some e => simp [Prod.ext_iff]

theorem Pass.checkRouting_eq_success_iff : (Pass.checkRouting (some m)).run c = .success out ↔
    AllLinks (fun _ a b => m.isLinked a b) c.instructions ∧ c.keepPlacement = out := by
  rw [Pass.run, Outcome.ofCircuit_eq_success, Circuit.checkRouted, Option.bind_some,
    ← Circuit.firstUnrouted?_eq_none_iff]
  cases c.firstUnrouted? m with
  | none => simp
  | some fault => simp

theorem linked_checkRouting (h : (Pass.checkRouting (some m)).run c = .success out) :
    out.numQubits = c.numQubits ∧ AllLinks (fun _ a b => m.isLinked a b) out.instructions := by
  obtain ⟨hlinks, rfl⟩ := Pass.checkRouting_eq_success_iff.mp h
  exact ⟨rfl, hlinks⟩

end CircuitStages
