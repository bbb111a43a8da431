import CircuitStages.Proofs.Mapping.Linked

namespace CircuitStages

variable {α : Type} {m : CouplingMap} {n : Nat} {is js : List (Instruction α)} {i : Instruction α}
  {s : RouteState α} {order waiting : List Nat}

namespace RouteState

/-- Routing in progress without a swap: every wire is where it started, and `js` have been put out as they are. -/
structure InPlace (n : Nat) (js : List (Instruction α)) (s : RouteState α) : Prop where
  wires_eq : s.wires = .trivial n
  steps_eq : s.steps.reverse = js.map .routed

theorem inPlace_start (n : Nat) : InPlace n [] (.start n : RouteState α) := ⟨rfl, rfl⟩

theorem InPlace.position_eq (h : InPlace n js s) (v : Nat) : s.position v = v := by
  rw [position, h.wires_eq]
  cases hv : (Layout.trivial n).physical? v with
  | none => rfl
  | some p =>
    have hmem := Layout.physical?_eq_some_iff.mp hv
    obtain ⟨q, -, hq⟩ := List.mem_map.mp hmem
    cases hq
    rfl

theorem InPlace.emit (h : InPlace n js s) (i : Instruction α) : InPlace n (js ++ [i]) (s.emit i) := by
  have hqubits : i.qubits.map s.position = i.qubits := List.map_id'' h.position_eq i.qubits
  refine ⟨h.wires_eq, ?_⟩
  simp only [RouteState.emit, hqubits, List.reverse_cons, h.steps_eq, List.map_append]
  rfl

theorem InPlace.emitAll (h : InPlace n js s) (is : List (Instruction α)) : InPlace n (js ++ is) (is.foldl .emit s) := by
  induction is generalizing s js with
  | nil => simpa using h
  | cons i is ih => simpa using ih (h.emit i)

theorem InPlace.blocked?_eq_none (h : InPlace n js s) (hi : ∀ a b, i.link? = some (a, b) → m.isLinked a b) :
    s.blocked? m i = none := by
  refine blocked?_eq_none_iff.mpr fun a b hab => ?_
  rw [h.position_eq, h.position_eq]
  exact hi a b hab

theorem InPlace.swapCount_eq_zero (h : InPlace n js s) : s.swapCount = 0 := by
  refine List.countP_eq_zero.mpr fun st hst => ?_
  have hrouted := List.mem_reverse.mpr hst
  rw [h.steps_eq] at hrouted
  obtain ⟨i, -, rfl⟩ := List.mem_map.mp hrouted
  exact Bool.false_ne_true

theorem swapCount_emit (s : RouteState α) (i : Instruction α) : (s.emit i).swapCount = s.swapCount := by
  simp [swapCount, emit, RouteStep.isInserted]

theorem swapCount_swap (s : RouteState α) (a b : Nat) : (s.swap a b).swapCount = s.swapCount + 1 := by
  simp [swapCount, swap, RouteStep.isInserted]

theorem swapCount_emitAll (s : RouteState α) (is : List (Instruction α)) :
    (is.foldl emit s).swapCount = s.swapCount := by
  induction is generalizing s with
  | nil => rfl
  | cons i is ih => exact (ih (s.emit i)).trans (s.swapCount_emit i)

/-- Basic routing passes over instructions that need no swap. -/
theorem InPlace.foldlM_routeNext (h : InPlace n js s) (his : AllLinks (fun _ a b => m.isLinked a b) is) :
    ∃ t, is.foldlM (routeNext m) s = .ok t ∧ InPlace n (js ++ is) t := by
  induction is generalizing s js with
  | nil => exact ⟨s, rfl, by simpa using h⟩
  | cons i is ih =>
    have hfree := h.blocked?_eq_none (his i List.mem_cons_self)
    have hnext : s.routeNext m i = .ok (s.emit i) := by
      rw [routeNext, hfree]
      rfl
    obtain ⟨t, ht, hplace⟩ := ih (h.emit i) fun j hj => his j (List.mem_cons_of_mem i hj)
    refine ⟨t, ?_, by simpa using hplace⟩
    rw [List.foldlM_cons, hnext]
    exact ht

end RouteState

/-- As long as no swap is inserted, everything that lookahead routing puts out is in place. -/
theorem Reaches.inPlace (h : Reaches m n is s order waiting) (hcount : s.swapCount = 0) :
    s.InPlace n (order.filterMap (is[·]?)) := by
  induction h with
  | start => exact RouteState.inPlace_start n
  | @emit s order waiting k i _ _ hi _ _ ih =>
    rw [RouteState.swapCount_emit] at hcount
    have hplace := (ih hcount).emit i
    rw [List.filterMap_append, List.filterMap_cons_some hi]
    exact hplace
  | swap _ _ _ =>
    rw [RouteState.swapCount_swap] at hcount
    exact absurd hcount (Nat.succ_ne_zero _)

theorem filterMap_getElem?_range (is : List (Instruction α)) : (List.range is.length).filterMap (is[·]?) = is := by
  induction is using List.reverseRecOn with
  | nil => rfl
  | append_singleton is i ih =>
    have hfront : (List.range is.length).filterMap ((is ++ [i])[·]?) = is :=
      (List.filterMap_congr fun _ hk => List.getElem?_append_left (List.mem_range.mp hk)).trans ih
    rw [List.length_append, List.length_singleton, List.range_succ, List.filterMap_append, hfront]
    simp

theorem Reaches.emitted_subperm (h : Reaches m n is s order waiting) : (order.filterMap (is[·]?)).Subperm is := by
  have hperm := h.perm.filterMap (is[·]?)
  rw [filterMap_getElem?_range, List.filterMap_append] at hperm
  exact (List.sublist_append_left _ _).subperm.trans hperm.subperm

namespace RouteProblem

theorem swapCount_release (r : RouteProblem α) (rounds : Nat) (s : RouteState α) (waiting : List Nat) :
    (r.release rounds s waiting).1.swapCount = s.swapCount := by
  induction rounds generalizing s waiting with
  | zero => rfl
  | succ rounds ih =>
    simp only [release]
    split
    · rfl
    · rw [ih, RouteState.swapCount_emitAll]

theorem due_eq_front (hs : s.InPlace n js) (his : AllLinks (fun _ a b => m.isLinked a b) is) {front : List Nat}
    (hlt : ∀ k ∈ front, k < is.length) : (ofInstructions m n is).due s front = front := by
  have hall : ∀ k ∈ front, k ∈ (ofInstructions m n is).due s front := by
    intro k hk
    have hi := List.getElem?_eq_getElem (hlt k hk)
    exact mem_due.mpr ⟨hk, _, hi, hs.blocked?_eq_none (his _ (List.getElem_mem _))⟩
  refine List.filter_eq_self.mpr fun k hk => ?_
  exact (List.mem_filter.mp (hall k hk)).2

/-- Where nothing has to move, a release goes on until nothing is at the front. -/
theorem front_release_eq_nil (hs : s.InPlace n js) (his : AllLinks (fun _ a b => m.isLinked a b) is) {rounds : Nat}
    (hlt : ∀ k ∈ waiting, k < is.length) (hle : waiting.length ≤ rounds) :
    (ofInstructions m n is).dependencies.front ((ofInstructions m n is).release rounds s waiting).2 = [] := by
  induction rounds generalizing s js waiting with
  | zero =>
    have hnone : waiting = [] := List.length_eq_zero_iff.mp (Nat.le_zero.mp hle)
    rw [release, hnone]
    rfl
  | succ rounds ih =>
    have hsub : ∀ k ∈ (ofInstructions m n is).dependencies.front waiting, k ∈ waiting :=
      fun k hk => List.mem_of_mem_filter hk
    have hdue := due_eq_front hs his fun k hk => hlt k (hsub k hk)
    simp only [release]
    split
    next hempty =>
      rw [← hdue]
      exact List.isEmpty_iff.mp hempty
    next hsome =>
      have hless := (ofInstructions m n is).length_filter_due_lt s waiting (by simpa using hsome)
      refine ih (hs.emitAll _) (fun k hk => hlt k (List.mem_of_mem_filter hk)) ?_
      exact Nat.le_of_lt_succ (Nat.lt_of_lt_of_le hless hle)

end RouteProblem

/-- Lookahead routing releases everything in one turn if nothing has to move. -/
theorem exists_routeLookahead_of_allLinks (n : Nat) (his : AllLinks (fun _ a b => m.isLinked a b) is) :
    ∃ s order waiting, routeLookahead m n is = .ok s ∧ s.swapCount = 0 ∧ Reaches m n is s order waiting ∧
      (Dependencies.ofInstructions is).front waiting = [] := by
  have hstart : Reaches m n is (.start n) [] (List.range is.length) := .start
  obtain ⟨order, hreaches⟩ := hstart.release (List.range is.length).length
  have hfront := RouteProblem.front_release_eq_nil (RouteState.inPlace_start n) his
    (fun k hk => List.mem_range.mp hk) (Nat.le_refl _)
  refine ⟨_, order, _, ?_, RouteProblem.swapCount_release _ _ _ _, hreaches, hfront⟩
  rw [routeLookahead, RouteProblem.run]
  dsimp only
  rw [hfront]
  rfl

theorem IsReordering.refl (is : List (Instruction α)) : IsReordering is is := by
  refine ⟨List.finRange is.length, List.Perm.refl _, (List.map_get_finRange is).symm, ?_⟩
  exact (List.pairwise_lt_finRange is.length).imp fun {a b} hab (_ : SharesOperand (is.get a) (is.get b)) => hab

/-- The two ways of routing. -/
inductive Router where
  | basic
  | lookahead

namespace Router

def route : Router → CouplingMap → Nat → List (Instruction α) → Except CircuitError (RouteState α)
  | basic => routeBasic
  | lookahead => routeLookahead

def pass (m : CouplingMap) : Router → Pass
  | basic => .basicRouting (some m)
  | lookahead => .lookaheadRouting (some m)

theorem run_pass (r : Router) (m : CouplingMap) (c : Circuit Float) :
    (r.pass m).run c = .ofRoute (c.widen m) (r.route m (c.widen m).numQubits c.instructions) := by
  cases r <;> rfl

theorem allLinks_of_run_pass {r : Router} {c out : Circuit Float} (hc : c.WellFormed)
    (h : (r.pass m).run c = .success out) : AllLinks (fun _ a b => m.isLinked a b) out.instructions := by
  cases r with
  | basic => exact (linked_basicRouting hc h).2
  | lookahead => exact (linked_lookaheadRouting hc h).2

/-- Where nothing has to move, either router succeeds and puts the instructions out in place: all of them in an order
that keeps the program, but for what is stuck behind an instruction that lists a classical bit twice. -/
theorem exists_inPlace (r : Router) (n : Nat) (his : AllLinks (fun _ a b => m.isLinked a b) is) :
    ∃ s js, r.route m n is = .ok s ∧ s.InPlace n js ∧ js.Subperm is ∧ (r = .basic → js = is) ∧
      ((∀ i ∈ is, i.clbits.Nodup) → IsReordering is js) := by
  cases r with
  | basic =>
    obtain ⟨s, hs, hplace⟩ := (RouteState.inPlace_start n).foldlM_routeNext his
    exact ⟨s, is, hs, hplace, List.Subperm.refl is, fun _ => rfl, fun _ => .refl is⟩
  | lookahead =>
    obtain ⟨s, order, waiting, hs, hcount, hreaches, hfront⟩ := exists_routeLookahead_of_allLinks n his
    refine ⟨s, _, hs, hreaches.inPlace hcount, hreaches.emitted_subperm, nofun, fun hnd => ?_⟩
    have hempty := eq_nil_of_front_eq_nil (fun _ hk => hreaches.lt_of_mem_waiting hk) hnd hfront
    have hperm := hreaches.perm
    rw [hempty, List.append_nil] at hperm
    exact isReordering_of_respects hreaches.respects hperm

end Router

namespace Circuit

/-- A run without a swap leaves the circuit where it is. -/
theorem finishRoute_of_inPlace (c : Circuit α) (h : s.InPlace n js) :
    c.finishRoute s = { (c.withInstructions js) with finalLayout := some c.initialLayout } := by
  have hsteps : s.steps.reverse.map (·.toInstruction) = js := by
    rw [h.steps_eq, List.map_map]
    exact List.map_id js
  have hplaced : (c.initialLayout.pairs.map fun e => (e.1, s.position e.2)) = c.initialLayout.pairs := by
    simp only [h.position_eq, List.map_id']
  rw [finishRoute, hsteps, hplaced, Layout.ofPairs_pairs]

/-- Whether a router inserts no swap: it succeeds with none counted, every qubit stays where it is, and the result
consists of instructions of the circuit, each at most once; all of them in an order that keeps the program, unless one
lists a classical bit twice. -/
def RoutesInPlace (c : Circuit Float) (r : Router) (m : CouplingMap) : Prop :=
  ∃ s out, r.route m (c.widen m).numQubits c.instructions = .ok s ∧ s.swapCount = 0 ∧
    (r.pass m).run c = .success out ∧ out = (c.widen m).finishRoute s ∧
    out.finalLayout = some (c.widen m).initialLayout ∧ out.instructions.Subperm c.instructions ∧
    (r = .basic → out.instructions = c.instructions) ∧
    ((∀ i ∈ c.instructions, i.clbits.Nodup) → IsReordering c.instructions out.instructions)

theorem routesInPlace_of_allLinks {c : Circuit Float} (h : AllLinks (fun _ a b => m.isLinked a b) c.instructions)
    (r : Router) : c.RoutesInPlace r m := by
  obtain ⟨s, js, hs, hplace, hsub, hbasic, hreorder⟩ := r.exists_inPlace (c.widen m).numQubits h
  have hrun : (r.pass m).run c = .success ((c.widen m).finishRoute s) := by
    rw [r.run_pass, hs]
    rfl
  have hfinish := (c.widen m).finishRoute_of_inPlace hplace
  refine ⟨s, _, hs, hplace.swapCount_eq_zero, hrun, rfl, ?_⟩
  rw [hfinish]
  exact ⟨rfl, hsub, hbasic, hreorder⟩

end Circuit

/-- What a router makes of a circuit passes the routing check, and a circuit that passes it is routed without a swap by
either router; so a second routing inserts none. -/
theorem routers_agree_with_checkRouting {c : Circuit Float} (hc : c.WellFormed) :
    (∀ (r : Router) (out : Circuit Float), (r.pass m).run c = .success out →
      (Pass.checkRouting (some m)).run out = .success out.keepPlacement ∧
      AllLinks (fun _ a b => m.isLinked a b) out.instructions ∧ ∀ r' : Router, out.RoutesInPlace r' m) ∧
    ∀ checked, (Pass.checkRouting (some m)).run c = .success checked → ∀ r : Router, c.RoutesInPlace r m := by
  refine ⟨fun r out hrun => ?_, fun checked hcheck r => ?_⟩
  · have hlinks := Router.allLinks_of_run_pass hc hrun
    have hcheck := Pass.checkRouting_eq_success_iff.mpr ⟨hlinks, rfl⟩
    exact ⟨hcheck, hlinks, Circuit.routesInPlace_of_allLinks hlinks⟩
  · have hlinks := (Pass.checkRouting_eq_success_iff.mp hcheck).1
    exact Circuit.routesInPlace_of_allLinks hlinks r

theorem routers_agree_with_checkRouting_ghz : (Circuit.ghz 3 : Circuit Float).WellFormed ∧
    (∃ out, (Router.lookahead.pass (.star 3)).run (.ghz 3) = .success out ∧
      (Pass.checkRouting (some (.star 3))).run out = .success out.keepPlacement ∧
      AllLinks (fun _ a b => (CouplingMap.star 3).isLinked a b) out.instructions ∧
      ∀ r : Router, out.RoutesInPlace r (.star 3)) ∧
    (∃ checked, (Pass.checkRouting (some (.linear 3))).run (.ghz 3) = .success checked) ∧
    ∀ r : Router, (Circuit.ghz 3).RoutesInPlace r (.linear 3) := by
  have hwf := Circuit.wellFormed_ghz (α := Float) 3
  have hok : ((Router.lookahead.pass (.star 3)).run (.ghz 3)).isFailure = false := by decide +kernel
  have hrun := Outcome.eq_success_of_not_isFailure hok
  have hchecked : ((Pass.checkRouting (some (.linear 3))).run (.ghz 3)).isFailure = false := by decide +kernel
  have hcheck := Outcome.eq_success_of_not_isFailure hchecked
  exact ⟨hwf, ⟨_, hrun, (routers_agree_with_checkRouting hwf).1 _ _ hrun⟩, ⟨_, hcheck⟩,
    (routers_agree_with_checkRouting hwf).2 _ hcheck⟩

end CircuitStages
