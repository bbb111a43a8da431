import CircuitStages.Proofs.Circuit.Checks
import CircuitStages.Proofs.Except
import CircuitStages.Proofs.Mapping.Progress
import CircuitStages.Proofs.Pass.Runs
import Mathlib.Data.Multiset.ZeroCons

namespace CircuitStages

variable {α : Type} {m : CouplingMap} {n : Nat} {is : List (Instruction α)} {s t : RouteState α}
  {order waiting : List Nat}

theorem mem_pick {ks : List Nat} {i : Instruction α} :
    i ∈ (Dependencies.ofInstructions is).pick ks ↔ ∃ k ∈ ks, is[k]? = some i := by
  simp [Dependencies.pick, Dependencies.ofInstructions]

/-- A fold that keeps what it has or takes what comes ends with one of these. -/
theorem eq_or_mem_of_foldl {β : Type} {pick : Option β → β → Option β}
    (hpick : ∀ best x, pick best x = best ∨ pick best x = some x) {xs : List β} {best : Option β} {y : β}
    (h : xs.foldl pick best = some y) : best = some y ∨ y ∈ xs := by
  induction xs generalizing best with
  | nil => exact .inl h
  | cons x xs ih =>
    rcases ih h with hstep | hmem
    · rcases hpick best x with hkeep | htake
      · exact .inl (hkeep.symm.trans hstep)
      · exact .inr (Option.some.inj (htake.symm.trans hstep) ▸ List.mem_cons_self)
    · exact .inr (List.mem_cons_of_mem _ hmem)

theorem mem_of_firstLeast? {β : Type} {scored : List (β × Float)} {x : β} (h : firstLeast? scored = some x) :
    ∃ v, (x, v) ∈ scored := by
  obtain ⟨e, he, rfl⟩ := Option.map_eq_some_iff.mp h
  refine ⟨e.2, (eq_or_mem_of_foldl (fun best d => ?_) he).resolve_left nofun⟩
  cases best with
  | none => exact .inr rfl
  | some b =>
    dsimp only
    split
    · exact .inr rfl
    · exact .inl rfl

namespace RouteProblem

theorem mem_due {front : List Nat} {k : Nat} :
    k ∈ (ofInstructions m n is).due s front ↔ k ∈ front ∧ ∃ i, is[k]? = some i ∧ s.blocked? m i = none := by
  simp [due, ofInstructions, Dependencies.ofInstructions, Option.any_eq_true]

/-- A swap that is considered moves some position along a link. -/
theorem exists_of_mem_candidates {blocked : List (Nat × Nat)} {e : Nat × Nat}
    (h : e ∈ (ofInstructions m n is).candidates blocked) : ∃ p, ∃ q ∈ m.neighbors p, (min p q, max p q) = e := by
  obtain ⟨p, -, he⟩ := List.mem_flatMap.mp ((mem_ascending linkBefore_total).mp h)
  obtain ⟨q, hq, heq⟩ := List.mem_map.mp he
  change q ∈ m.neighborTable.getD p [] at hq
  rw [m.getD_neighborTable] at hq
  exact ⟨p, q, hq, heq⟩

theorem isLinked_of_mem_candidates {blocked : List (Nat × Nat)} {e : Nat × Nat}
    (h : e ∈ (ofInstructions m n is).candidates blocked) : m.isLinked e.1 e.2 := by
  obtain ⟨p, q, hq, rfl⟩ := exists_of_mem_candidates h
  have link := (CouplingMap.mem_neighbors.mp hq).1
  rcases Nat.le_total p q with hpq | hqp
  · rwa [Nat.min_eq_left hpq, Nat.max_eq_right hpq]
  · rwa [Nat.min_eq_right hqp, Nat.max_eq_left hqp, m.isLinked_comm]

theorem mem_candidates_of_bestSwap {decay : Array Float} {front : List Nat} {first : Instruction α} {e : Nat × Nat}
    (h : (ofInstructions m n is).bestSwap s decay front first = .ok e) :
    e ∈ (ofInstructions m n is).candidates ((ofInstructions m n is).blockedPairs s front) := by
  simp only [bestSwap, bind_eq_ok] at h
  obtain ⟨scored, hscored, h⟩ := h
  split at h
  next best hbest =>
    cases h
    obtain ⟨v, hv⟩ := mem_of_firstLeast? hbest
    obtain ⟨d, hd, hde⟩ := exists_of_mem_mapM hscored hv
    obtain ⟨w, -, hw⟩ := bind_eq_ok.mp hde
    cases pure_eq_ok.mp hw
    exact hd
  next => cases h

theorem isLinked_of_bestSwap {decay : Array Float} {front : List Nat} {first : Instruction α} {e : Nat × Nat}
    (h : (ofInstructions m n is).bestSwap s decay front first = .ok e) : m.isLinked e.1 e.2 :=
  isLinked_of_mem_candidates (mem_candidates_of_bestSwap h)

end RouteProblem

namespace Reaches

/-- Instructions that wait for nothing and are not blocked can go out together. -/
theorem emitAll (h : Reaches m n is s order waiting) {ks : List Nat} (hnd : ks.Nodup)
    (hfree : ∀ k ∈ ks, k ∈ waiting ∧ (∀ p, WaitsFor is k p → p ∉ waiting) ∧
      ∃ i, is[k]? = some i ∧ s.blocked? m i = none) :
    Reaches m n is (((Dependencies.ofInstructions is).pick ks).foldl .emit s) (order ++ ks)
      (waiting.filter fun k => !ks.contains k) := by
  induction ks generalizing s order waiting with
  | nil => simpa [Dependencies.pick] using h
  | cons k ks ih =>
    obtain ⟨hk, hks⟩ := List.nodup_cons.mp hnd
    obtain ⟨hwait, hfirst, i, hi, hb⟩ := hfree k List.mem_cons_self
    have hnext := ih (h.emit hwait hi hfirst hb) hks ?_
    · have hpick : (Dependencies.ofInstructions is).pick (k :: ks) =
          i :: (Dependencies.ofInstructions is).pick ks := by
        simp [Dependencies.pick, Dependencies.ofInstructions, hi]
      have hrest : waiting.filter (fun j => !(k :: ks).contains j) =
          (waiting.erase k).filter fun j => !ks.contains j := by
        rw [h.nodup_waiting.erase_eq_filter, List.filter_filter]
        refine List.filter_congr fun j _ => ?_
        rw [List.contains_cons, Bool.not_or, Bool.and_comm]
        rfl
      rw [hpick, hrest, List.foldl_cons]
      simpa using hnext
    · intro j hj
      obtain ⟨hjwait, hjfirst, l, hl, hlb⟩ := hfree j (List.mem_cons_of_mem _ hj)
      have hne : j ≠ k := fun he => hk (he ▸ hj)
      exact ⟨(List.mem_erase_of_ne hne).mpr hjwait, fun p hp hin => hjfirst p hp (List.mem_of_mem_erase hin), l, hl,
        hlb⟩

/-- All that is due can go out together. -/
theorem emitDue (h : Reaches m n is s order waiting) {due : List Nat}
    (hdue : (RouteProblem.ofInstructions m n is).due s ((Dependencies.ofInstructions is).front waiting) = due) :
    Reaches m n is (((Dependencies.ofInstructions is).pick due).foldl .emit s) (order ++ due)
      (waiting.filter fun k => !due.contains k) := by
  subst hdue
  refine h.emitAll ((h.nodup_waiting.filter _).filter _) fun k hk => ?_
  obtain ⟨hfront, hfree⟩ := RouteProblem.mem_due.mp hk
  obtain ⟨hwait, hfirst⟩ := (mem_front fun _ hj => h.lt_of_mem_waiting hj).mp hfront
  exact ⟨hwait, hfirst, hfree⟩

theorem release (h : Reaches m n is s order waiting) (rounds : Nat) :
    ∃ order', Reaches m n is ((RouteProblem.ofInstructions m n is).release rounds s waiting).1 order'
      ((RouteProblem.ofInstructions m n is).release rounds s waiting).2 := by
  induction rounds generalizing s order waiting with
  | zero => exact ⟨order, h⟩
  | succ rounds ih =>
    simp only [RouteProblem.release]
    split
    · exact ⟨order, h⟩
    · exact ih (h.emitDue rfl)

end Reaches

namespace RouteProblem

theorem length_release_le (r : RouteProblem α) (rounds : Nat) (s : RouteState α) (waiting : List Nat) :
    (r.release rounds s waiting).2.length ≤ waiting.length := by
  induction rounds generalizing s waiting with
  | zero => exact Nat.le_refl _
  | succ rounds ih =>
    simp only [release]
    split
    · exact Nat.le_refl _
    · exact (ih _ _).trans (List.length_filter_le _ _)

/-- A round takes something away if something is due. -/
theorem length_filter_due_lt (r : RouteProblem α) (s : RouteState α) (waiting : List Nat)
    (h : r.due s (r.dependencies.front waiting) ≠ []) :
    (waiting.filter fun k => !(r.due s (r.dependencies.front waiting)).contains k).length < waiting.length := by
  obtain ⟨k, hk⟩ := List.exists_mem_of_ne_nil _ h
  have hwait : k ∈ waiting := List.mem_of_mem_filter (List.mem_of_mem_filter hk)
  exact List.length_filter_lt_length_iff_exists.mpr ⟨k, hwait, by simpa using hk⟩

/-- A release takes something away if something is due. -/
theorem length_release_lt (r : RouteProblem α) (s : RouteState α) (waiting : List Nat)
    (h : r.due s (r.dependencies.front waiting) ≠ []) :
    (r.release waiting.length s waiting).2.length < waiting.length := by
  have hless := r.length_filter_due_lt s waiting h
  obtain ⟨rounds, hrounds⟩ := Nat.exists_eq_add_one_of_ne_zero (Nat.ne_zero_of_lt hless)
  rw [hrounds, release, if_neg (by simpa using h), ← hrounds]
  exact (r.length_release_le _ _ _).trans_lt hless

/-- A release with rounds enough goes on until nothing is due. -/
theorem due_release_eq_nil (r : RouteProblem α) {rounds : Nat} (s : RouteState α) {waiting : List Nat}
    (h : waiting.length ≤ rounds) : r.due (r.release rounds s waiting).1
      (r.dependencies.front (r.release rounds s waiting).2) = [] := by
  induction rounds generalizing s waiting with
  | zero =>
    obtain rfl := List.length_eq_zero_iff.mp (Nat.le_zero.mp h)
    rfl
  | succ rounds ih =>
    simp only [release]
    split
    next hempty => exact List.isEmpty_iff.mp hempty
    next hsome =>
      have hless := r.length_filter_due_lt s waiting (by simpa using hsome)
      exact ih _ (Nat.le_of_lt_succ (Nat.lt_of_lt_of_le hless h))

end RouteProblem

namespace Reaches

/-- Unblocking only swaps linked positions, and something at the front is due in the end. -/
theorem unblock (h : Reaches m n is s order waiting) (hlt : ∀ i ∈ is, ∀ q ∈ i.qubits, q < n)
    (hnd : ∀ i ∈ is, i.qubits.Nodup) {front : List Nat} {first : Instruction α}
    (hfirst : first ∈ (Dependencies.ofInstructions is).pick front) {patience : Nat} {decay : Array Float}
    (hok : (RouteProblem.ofInstructions m n is).unblock front first patience decay s = .ok t) :
    Reaches m n is t order waiting ∧ (RouteProblem.ofInstructions m n is).due t front ≠ [] := by
  induction patience generalizing s decay with
  | zero =>
    obtain ⟨k, hk, hi⟩ := mem_pick.mp hfirst
    have hmem := List.mem_of_getElem? hi
    have hdue (hfree : t.blocked? m first = none) : (RouteProblem.ofInstructions m n is).due t front ≠ [] :=
      List.ne_nil_of_mem (RouteProblem.mem_due.mpr ⟨hk, first, hi, hfree⟩)
    rw [RouteProblem.unblock] at hok
    split at hok
    next a b hb =>
      obtain ⟨es, rfl, hes⟩ := RouteState.exists_swaps_of_walk hok
      exact ⟨h.swaps hes, hdue (h.tracks.blocked?_walk (hlt first hmem) (hnd first hmem) hb hok)⟩
    next hfree =>
      cases hok
      exact ⟨h, hdue hfree⟩
  | succ patience ih =>
    rw [RouteProblem.unblock, bind_eq_ok] at hok
    obtain ⟨⟨a, b⟩, hbest, hok⟩ := hok
    have hswap := h.swap (RouteProblem.isLinked_of_bestSwap hbest)
    dsimp only at hok
    split at hok
    · exact ih hswap hok
    next hdue =>
      cases pure_eq_ok.mp hok
      exact ⟨hswap, by simpa using hdue⟩

/-- The loop ends with nothing at the front: every turn but the first releases something. -/
theorem run (h : Reaches m n is s order waiting) (hlt : ∀ i ∈ is, ∀ q ∈ i.qubits, q < n)
    (hnd : ∀ i ∈ is, i.qubits.Nodup) {turns : Nat}
    (hturns : waiting.length < turns ∨ (waiting.length ≤ turns ∧
      (RouteProblem.ofInstructions m n is).due s ((Dependencies.ofInstructions is).front waiting) ≠ []))
    (hok : (RouteProblem.ofInstructions m n is).run turns s waiting = .ok t) :
    ∃ order' waiting', Reaches m n is t order' waiting' ∧ (Dependencies.ofInstructions is).front waiting' = [] := by
  induction turns generalizing s order waiting with
  | zero =>
    rcases hturns with hless | ⟨hle, hdue⟩
    · exact absurd hless (Nat.not_lt_zero _)
    · rw [List.length_eq_zero_iff.mp (Nat.le_zero.mp hle)] at hdue
      exact absurd rfl hdue
  | succ turns ih =>
    obtain ⟨released, hreleased⟩ := h.release waiting.length
    have hle : ((RouteProblem.ofInstructions m n is).release waiting.length s waiting).2.length ≤ turns := by
      rcases hturns with hless | ⟨hle, hdue⟩
      · exact (RouteProblem.length_release_le _ _ _ _).trans (Nat.le_of_lt_succ hless)
      · exact Nat.le_of_lt_succ ((RouteProblem.length_release_lt _ _ _ hdue).trans_le hle)
    rw [RouteProblem.run] at hok
    dsimp only at hok
    split at hok
    next hempty =>
      cases hok
      refine ⟨released, _, hreleased, List.eq_nil_iff_forall_not_mem.mpr fun k hk => ?_⟩
      have hwait := ((mem_front fun _ hj => hreleased.lt_of_mem_waiting hj).mp hk).1
      have hi := List.getElem?_eq_getElem (hreleased.lt_of_mem_waiting hwait)
      exact List.ne_nil_of_mem (mem_pick.mpr ⟨k, hk, hi⟩) (List.head?_eq_none_iff.mp hempty)
    next first hfirst =>
      obtain ⟨u, hunblock, hok⟩ := bind_eq_ok.mp hok
      obtain ⟨hu, hdue⟩ := hreleased.unblock hlt hnd (List.mem_of_head? hfirst) hunblock
      exact ih hu (.inr ⟨hle, hdue⟩) hok

end Reaches

/-- A finished run has reached a state with nothing at the front. -/
theorem reaches_of_routeLookahead (hlt : ∀ i ∈ is, ∀ q ∈ i.qubits, q < n) (hnd : ∀ i ∈ is, i.qubits.Nodup)
    (h : routeLookahead m n is = .ok s) :
    ∃ order waiting, Reaches m n is s order waiting ∧ (Dependencies.ofInstructions is).front waiting = [] := by
  refine Reaches.start.run hlt hnd (.inl ?_) h
  rw [List.length_range]
  exact Nat.lt_succ_self _

/-- Without repeated classical bits a finished run has put out every instruction once, in an order that keeps the
program. -/
theorem isReordering_emitted (h : Reaches m n is s order waiting) (hlt : ∀ i ∈ is, ∀ q ∈ i.qubits, q < n)
    (hnd : ∀ i ∈ is, i.clbits.Nodup) (hfront : (Dependencies.ofInstructions is).front waiting = []) :
    IsReordering is s.emitted := by
  have hempty := eq_nil_of_front_eq_nil (fun _ hk => h.lt_of_mem_waiting hk) hnd hfront
  have hperm := h.perm
  rw [hempty, List.append_nil] at hperm
  rw [h.emitted hlt]
  exact isReordering_of_respects h.respects hperm

/-- The same operation with the same classical bits and parameters, on relabelled qubits. -/
def Relabels (i j : Instruction α) : Prop := ∃ w : Equiv.Perm Nat, j = i.onQubits (i.qubits.map w)

/-- A result that consists of the given instructions, each once and relabelled in some way, and of swaps. -/
def LosesNothing (is out : List (Instruction α)) : Prop :=
  ∃ (matched routed : List (Instruction α)) (swaps : List (Nat × Nat)),
    matched.Perm is ∧ List.Forall₂ Relabels matched routed ∧
      out.Perm (routed ++ swaps.map fun e => Instruction.swap e.1 e.2)

/-- Steps consist of what replay reads back, relabelled, and of swaps. -/
theorem exists_forall₂_readBack (w : Equiv.Perm Nat) (steps : List (RouteStep α)) :
    ∃ (routed : List (Instruction α)) (swaps : List (Nat × Nat)), List.Forall₂ Relabels (readBack w steps) routed ∧
      (steps.map RouteStep.toInstruction).Perm (routed ++ swaps.map fun e => Instruction.swap e.1 e.2) := by
  induction steps generalizing w with
  | nil => exact ⟨[], [], .nil, List.Perm.refl _⟩
  | cons st steps ih =>
    cases st with
    | inserted a b =>
      obtain ⟨routed, swaps, hread, hperm⟩ := ih (Equiv.swap a b * w)
      exact ⟨routed, (a, b) :: swaps, hread, (hperm.cons _).trans List.perm_middle.symm⟩
    | routed i =>
      obtain ⟨routed, swaps, hread, hperm⟩ := ih w
      refine ⟨i :: routed, swaps, .cons ⟨w, ?_⟩ hread, hperm.cons i⟩
      exact (i.onQubits_map_symm w.symm).symm

theorem LosesNothing.exists_relabels {is out : List (Instruction α)} (h : LosesNothing is out) {i : Instruction α}
    (hi : i ∈ is) : ∃ j ∈ out, Relabels i j := by
  obtain ⟨matched, routed, swaps, hmatched, hrel, hout⟩ := h
  obtain ⟨k, hk, rfl⟩ := List.getElem_of_mem (hmatched.mem_iff.mpr hi)
  obtain ⟨hlen, hget⟩ := List.forall₂_iff_get.mp hrel
  have hk' : k < routed.length := hlen ▸ hk
  exact ⟨routed.get ⟨k, hk'⟩, hout.mem_iff.mpr (List.mem_append_left _ (List.get_mem _ _)), hget k hk hk'⟩

/-- Routing with lookahead keeps every instruction, once, exactly if none lists a classical bit twice. -/
theorem losesNothing_lookaheadRouting_iff {m : CouplingMap} {c out : Circuit Float} (hc : c.WellFormed)
    (h : (Pass.lookaheadRouting (some m)).run c = .success out) :
    LosesNothing c.instructions out.instructions ↔ ∀ i ∈ c.instructions, i.clbits.Nodup := by
  rw [Pass.run, routeOn, Outcome.ofRoute_eq_success] at h
  obtain ⟨s, hs, rfl⟩ := h
  have hlt := hc.qubits_lt_widen m
  obtain ⟨order, waiting, hreaches, hfront⟩ := reaches_of_routeLookahead hlt hc.qubits_nodup hs
  constructor
  · intro hkept i hi
    obtain ⟨j, hj, w, rfl⟩ := hkept.exists_relabels hi
    obtain ⟨st, hst, heq⟩ := List.mem_map.mp hj
    have hclbits := hreaches.clbits_nodup st (List.mem_reverse.mp hst)
    rw [heq] at hclbits
    exact hclbits
  · intro hnd
    obtain ⟨routed, swaps, hread, hout⟩ := exists_forall₂_readBack 1 s.steps.reverse
    exact ⟨_, routed, swaps, (isReordering_emitted hreaches hlt hnd hfront).perm, hread, hout⟩

theorem losesNothing_ghz : (Circuit.ghz 3 : Circuit Float).WellFormed ∧
    ∃ out, (Pass.lookaheadRouting (some (.star 3))).run (.ghz 3) = .success out ∧
      (LosesNothing (Circuit.ghz 3).instructions out.instructions ↔
        ∀ i ∈ (Circuit.ghz 3 : Circuit Float).instructions, i.clbits.Nodup) := by
  have hok : ((Pass.lookaheadRouting (some (.star 3))).run (.ghz 3)).isFailure = false := by decide +kernel
  have hrun := Outcome.eq_success_of_not_isFailure hok
  exact ⟨Circuit.wellFormed_ghz 3, _, hrun, losesNothing_lookaheadRouting_iff (Circuit.wellFormed_ghz 3) hrun⟩

/-- A conditional that lists a classical bit twice, with a gate behind it. -/
def Circuit.doubleRead : Circuit Float :=
  (Circuit.empty "double_read" 2 1).withInstructions [.controlFlow "if_else" [0] [0, 0], .x 0]

/-- An instruction that lists a classical bit twice waits for itself, so it is left out, with all behind it. -/
theorem not_losesNothing_doubleRead : Circuit.doubleRead.WellFormed ∧
    ∃ out, (Pass.lookaheadRouting (some (.linear 2))).run .doubleRead = .success out ∧ out.instructions = [] ∧
      ¬ LosesNothing Circuit.doubleRead.instructions out.instructions := by
  have hparts : Circuit.ofParts "double_read" 2 1 Circuit.doubleRead.instructions none none none =
      .ok .doubleRead := rfl
  have hok : ((Pass.lookaheadRouting (some (.linear 2))).run .doubleRead).isFailure = false := by decide +kernel
  have hempty : ((Pass.lookaheadRouting (some (.linear 2))).run .doubleRead).circuit.instructions = [] := by
    decide +kernel
  refine ⟨(Circuit.ofParts_eq_ok_iff.mp hparts).2, _, Outcome.eq_success_of_not_isFailure hok, hempty, ?_⟩
  intro hkept
  obtain ⟨j, hj, -⟩ := hkept.exists_relabels List.mem_cons_self
  rw [hempty] at hj
  cases hj

/-- Routing with lookahead keeps the program, up to the order of instructions without a common operand. -/
theorem isReordering_lookaheadRouting {m : CouplingMap} {c out : Circuit Float} (hc : c.WellFormed)
    (hnd : ∀ i ∈ c.instructions, i.clbits.Nodup) (h : (Pass.lookaheadRouting (some m)).run c = .success out) :
    ∃ (steps : List (RouteStep Float)) (l : Layout),
      out.instructions = steps.map RouteStep.toInstruction ∧
      IsReordering c.instructions (readBack 1 steps) ∧
      out.finalLayout = some l ∧
      ∀ v, l.physical? v = ((c.widen m).initialLayout.physical? v).map (wiresAfter 1 steps) := by
  rw [Pass.run, routeOn, Outcome.ofRoute_eq_success] at h
  obtain ⟨s, hs, rfl⟩ := h
  have hlt := hc.qubits_lt_widen m
  obtain ⟨order, waiting, hreaches, hfront⟩ := reaches_of_routeLookahead hlt hc.qubits_nodup hs
  obtain ⟨l, hl, hfinal⟩ := hc.physical?_finishRoute hreaches.tracks
  exact ⟨s.steps.reverse, l, rfl, isReordering_emitted hreaches hlt hnd hfront, hl, hfinal⟩

theorem isReordering_lookaheadRouting_ghz : (Circuit.ghz 3 : Circuit Float).WellFormed ∧
    (∀ i ∈ (Circuit.ghz 3 : Circuit Float).instructions, i.clbits.Nodup) ∧
    ∃ out, (Pass.lookaheadRouting (some (.star 3))).run (.ghz 3) = .success out ∧
    ∃ (steps : List (RouteStep Float)) (l : Layout),
      out.instructions = steps.map RouteStep.toInstruction ∧
      IsReordering (Circuit.ghz 3).instructions (readBack 1 steps) ∧
      out.finalLayout = some l ∧
      ∀ v, l.physical? v =
        (((Circuit.ghz 3 : Circuit Float).widen (.star 3)).initialLayout.physical? v).map (wiresAfter 1 steps) := by
  have hnd : ∀ i ∈ (Circuit.ghz 3 : Circuit Float).instructions, i.clbits.Nodup := by decide +kernel
  have hok : ((Pass.lookaheadRouting (some (.star 3))).run (.ghz 3)).isFailure = false := by decide +kernel
  have hrun := Outcome.eq_success_of_not_isFailure hok
  exact ⟨Circuit.wellFormed_ghz 3, hnd, _, hrun, isReordering_lookaheadRouting (Circuit.wellFormed_ghz 3) hnd hrun⟩

end CircuitStages
