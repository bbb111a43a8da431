import CircuitStages.Proofs.Device.Distance
import CircuitStages.Proofs.Mapping.InPlace
import CircuitStages.Proofs.Mapping.Kept

namespace CircuitStages

variable {α : Type} {m : CouplingMap} {n a b p q : Nat} {is : List (Instruction α)} {i first : Instruction α}
  {s : RouteState α} {order waiting front : List Nat}

namespace CouplingMap

theorem Joined.swap (h : m.isLinked a b) (p : Nat) : m.Joined p (Equiv.swap a b p) := by
  rw [Equiv.swap_apply_def]
  split_ifs with ha hb
  · exact ha ▸ .of_isLinked h
  · exact hb ▸ (Joined.of_isLinked h).symm
  · exact .refl m p

/-- Where a path leads from a qubit to another one, the first one has a neighbour. -/
theorem Joined.exists_mem_neighbors (h : m.Joined a b) (hne : a ≠ b) : ∃ q, q ∈ m.neighbors a := by
  obtain ⟨path, hpath⟩ := h.exists_shortestPath? hne
  have hwalk := isWalk_of_shortestPath? hpath
  match path, hwalk with
  | [], hwalk => cases hwalk.first
  | [x], hwalk => exact absurd ((Option.some.inj hwalk.first).symm.trans (Option.some.inj hwalk.last)) hne
  | x :: y :: rest, hwalk =>
    obtain rfl : x = a := Option.some.inj hwalk.first
    have hlink := (List.isChain_cons_cons.mp hwalk.linked).1
    exact ⟨y, mem_neighbors.mpr ⟨hlink, List.ne_of_not_mem_cons (List.nodup_cons.mp hwalk.nodup).1⟩⟩

/-- Two different qubits in one part of the map. -/
def Bridged (m : CouplingMap) (e : Nat × Nat) : Prop := e.1 ≠ e.2 ∧ m.Joined e.1 e.2

theorem Bridged.swap {e : Nat × Nat} (h : m.Bridged e) (hab : m.isLinked a b) :
    m.Bridged (Equiv.swap a b e.1, Equiv.swap a b e.2) :=
  ⟨(Equiv.swap a b).injective.ne h.1, ((Joined.swap hab e.1).symm.trans h.2).trans (.swap hab e.2)⟩

end CouplingMap

namespace RouteState

/-- Every wire below `n` is in the part of the device where it started. -/
def Stays (m : CouplingMap) (n : Nat) (s : RouteState α) : Prop := ∀ v < n, m.Joined v (s.position v)

theorem stays_start (m : CouplingMap) (n : Nat) : Stays m n (.start n : RouteState α) := by
  intro v _
  rw [(inPlace_start n).position_eq]
  exact .refl m v

theorem Stays.emit (h : Stays m n s) (i : Instruction α) : Stays m n (s.emit i) := h

theorem Stays.swap (h : Stays m n s) (hs : Tracks n s) (hab : m.isLinked a b) : Stays m n (s.swap a b) := by
  intro v hv
  rw [hs.position_swap a b hv]
  exact (h v hv).trans (.swap hab _)

theorem Stays.swaps (h : Stays m n s) (hs : Tracks n s) {es : List (Nat × Nat)} (hes : ∀ e ∈ es, m.isLinked e.1 e.2) :
    Stays m n (s.swaps es) := by
  induction es generalizing s with
  | nil => exact h
  | cons e es ih =>
    obtain ⟨he, hes⟩ := List.forall_mem_cons.mp hes
    exact ih (h.swap hs he) (hs.swap e.1 e.2) hes

theorem Stays.joined_iff (h : Stays m n s) (ha : a < n) (hb : b < n) :
    m.Joined (s.position a) (s.position b) ↔ m.Joined a b :=
  ⟨fun hab => ((h a ha).trans hab).trans (h b hb).symm, fun hab => ((h a ha).symm.trans hab).trans (h b hb)⟩

/-- The operands of a gate that is not blocked are in one part of the device. -/
theorem Stays.joined_of_blocked? (h : Stays m n s) (hlt : ∀ q ∈ i.qubits, q < n) (hfree : s.blocked? m i = none)
    (hl : i.link? = some (a, b)) : m.Joined a b := by
  obtain ⟨ha, hb⟩ := i.lt_of_link? hl hlt
  refine (h.joined_iff ha hb).mp ?_
  exact .of_isLinked (blocked?_eq_none_iff.mp hfree a b hl)

theorem Stays.bridged (h : Stays m n s) (hs : Tracks n s) (hlt : ∀ q ∈ i.qubits, q < n) (hnd : i.qubits.Nodup)
    (hl : i.link? = some (a, b)) (hab : m.Joined a b) : m.Bridged (s.position a, s.position b) := by
  obtain ⟨ha, hb⟩ := i.lt_of_link? hl hlt
  exact ⟨hs.ne_of_link? hl hlt hnd, (h.joined_iff ha hb).mpr hab⟩

theorem exists_walk (h : m.Bridged (p, q)) (name : String) : ∃ t, s.walk m name p q = .ok t := by
  obtain ⟨path, hpath⟩ := h.2.exists_shortestPath? h.1
  exact ⟨_, by rw [walk, hpath]⟩

/-- A turn of basic routing succeeds exactly if the operands are in one part of the device. -/
theorem exists_routeNext_iff (h : Stays m n s) (hs : Tracks n s) (hlt : ∀ q ∈ i.qubits, q < n)
    (hnd : i.qubits.Nodup) :
    (∃ t, s.routeNext m i = .ok t) ↔ ∀ a b, i.link? = some (a, b) → m.Joined a b := by
  constructor
  · rintro ⟨t, ht⟩ a b hl
    obtain ⟨es, -, hes, hfree⟩ := exists_swaps_of_routeNext ht hs hlt hnd
    exact (h.swaps hs hes).joined_of_blocked? hlt hfree hl
  · intro hjoined
    rw [routeNext]
    cases hb : s.blocked? m i with
    | none => exact ⟨_, rfl⟩
    | some e =>
      obtain ⟨a, b, hl, ha, hb⟩ := blocked?_eq_some hb
      have hbridged := h.bridged hs hlt hnd hl (hjoined a b hl)
      rw [ha, hb] at hbridged
      exact exists_bind_eq_ok (exists_walk hbridged i.name) fun t _ => ⟨_, rfl⟩

theorem exists_foldlM_routeNext_iff (h : Stays m n s) (hs : Tracks n s) (hlt : ∀ i ∈ is, ∀ q ∈ i.qubits, q < n)
    (hnd : ∀ i ∈ is, i.qubits.Nodup) :
    (∃ t, is.foldlM (routeNext m) s = .ok t) ↔ AllLinks (fun _ a b => m.Joined a b) is := by
  induction is generalizing s with
  | nil => exact iff_of_true ⟨s, rfl⟩ nofun
  | cons i is ih =>
    obtain ⟨hilt, hlt⟩ := List.forall_mem_cons.mp hlt
    obtain ⟨hind, hnd⟩ := List.forall_mem_cons.mp hnd
    have hnext {t : RouteState α} (ht : s.routeNext m i = .ok t) : Stays m n t ∧ Tracks n t := by
      obtain ⟨es, rfl, hes, -⟩ := exists_swaps_of_routeNext ht hs hilt hind
      exact ⟨h.swaps hs hes, (hs.swaps es).emit i⟩
    rw [AllLinks, List.forall_mem_cons, ← exists_routeNext_iff h hs hilt hind]
    simp only [List.foldlM_cons, bind_eq_ok]
    constructor
    · rintro ⟨u, t, ht, hu⟩
      obtain ⟨hstays, htracks⟩ := hnext ht
      exact ⟨⟨t, ht⟩, (ih hstays htracks hlt hnd).mp ⟨u, hu⟩⟩
    · rintro ⟨⟨t, ht⟩, hrest⟩
      obtain ⟨hstays, htracks⟩ := hnext ht
      obtain ⟨u, hu⟩ := (ih hstays htracks hlt hnd).mpr hrest
      exact ⟨u, t, ht, hu⟩

end RouteState

namespace Reaches

theorem stays (h : Reaches m n is s order waiting) : s.Stays m n := by
  induction h with
  | start => exact RouteState.stays_start m n
  | emit _ _ _ _ _ ih => exact ih.emit _
  | swap h hab ih => exact ih.swap h.tracks hab

/-- The operands of all that has been put out are in one part of the device. -/
theorem joined_of_mem (h : Reaches m n is s order waiting) (hlt : ∀ i ∈ is, ∀ q ∈ i.qubits, q < n) {k : Nat}
    (hk : k ∈ order) (hi : is[k]? = some i) (hl : i.link? = some (a, b)) : m.Joined a b := by
  induction h with
  | start => cases hk
  | emit h _ hj _ hfree ih =>
    rcases List.mem_append.mp hk with hk | hk
    · exact ih hk
    · obtain rfl := List.mem_singleton.mp hk
      obtain rfl := Option.some.inj (hj.symm.trans hi)
      exact h.stays.joined_of_blocked? (hlt _ (List.mem_of_getElem? hi)) hfree hl
  | swap _ _ ih => exact ih hk

/-- Once nothing waits, all operands are in one part of the device. -/
theorem allLinks_joined (h : Reaches m n is s order []) (hlt : ∀ i ∈ is, ∀ q ∈ i.qubits, q < n) :
    AllLinks (fun _ a b => m.Joined a b) is := by
  intro i hi a b hl
  obtain ⟨k, hk, rfl⟩ := List.getElem_of_mem hi
  have hmem := h.perm.mem_iff.mpr (List.mem_range.mpr hk)
  rw [List.append_nil] at hmem
  exact h.joined_of_mem hlt hmem (List.getElem?_eq_getElem hk) hl

end Reaches

namespace Dependencies

theorem exists_of_mem_linksBehind {limit fuel : Nat} {queue seen : List Nat} {found : List (Nat × Nat)} {e : Nat × Nat}
    (h : e ∈ (ofInstructions is).linksBehind limit fuel queue seen found) :
    e ∈ found ∨ ∃ i ∈ is, i.link? = some e := by
  induction fuel generalizing queue seen found with
  | zero => exact .inl h
  | succ fuel ih =>
    cases queue with
    | nil => exact .inl h
    | cons k queue =>
      rw [linksBehind] at h
      split at h
      · exact .inl h
      · rcases ih h with hfound | hlater
        · rcases List.mem_append.mp hfound with hfound | hfresh
          · exact .inl hfound
          · obtain ⟨i, hi, hl⟩ := List.mem_filterMap.mp hfresh
            obtain ⟨j, -, hj⟩ := mem_pick.mp hi
            exact .inr ⟨i, List.mem_of_getElem? hj, hl⟩
        · exact .inr hlater

/-- What comes behind a front are operands of the circuit. -/
theorem exists_of_mem_lookahead {limit : Nat} {e : Nat × Nat} (h : e ∈ (ofInstructions is).lookahead limit front) :
    ∃ i ∈ is, i.link? = some e :=
  (exists_of_mem_linksBehind (List.mem_of_mem_take h)).resolve_left List.not_mem_nil

end Dependencies

theorem exists_firstLeast? {β : Type} {scored : List (β × Float)} (h : scored ≠ []) :
    ∃ x, firstLeast? scored = some x := by
  obtain ⟨e, rest, rfl⟩ := List.exists_cons_of_ne_nil h
  have hsome : (firstLeast? (e :: rest)).isSome := by
    rw [firstLeast?, Option.isSome_map, List.foldl_cons]
    refine List.foldlRecOn (motive := fun best => Option.isSome best = true) rest _ rfl fun best hbest d _ => ?_
    obtain ⟨b, rfl⟩ := Option.isSome_iff_exists.mp hbest
    dsimp only
    split <;> rfl
  exact Option.isSome_iff_exists.mp hsome

namespace RouteProblem

theorem exists_meanDistance (hab : m.isLinked a b) {pairs : List (Nat × Nat)} (hpairs : ∀ e ∈ pairs, m.Bridged e)
    (name : String) : ∃ mean, (ofInstructions m n is).meanDistance name (a, b) pairs = .ok mean := by
  refine exists_bind_eq_ok (exists_foldlM_eq_ok (fun total e he => ?_) _) fun total _ => ⟨_, rfl⟩
  obtain ⟨hne, hjoined⟩ := (hpairs e he).swap hab
  obtain ⟨d, hd⟩ := hjoined.exists_distance? hne
  simp only [exchange_eq_swap, distance?, ofInstructions, m.getD_distances, hd]
  exact ⟨_, rfl⟩

theorem exists_score (hab : m.isLinked a b) {blocked behind : List (Nat × Nat)} (hblocked : ∀ e ∈ blocked, m.Bridged e)
    (hbehind : ∀ e ∈ behind, m.Bridged e) (decay : Array Float) (name : String) :
    ∃ value, (ofInstructions m n is).score decay name blocked behind (a, b) = .ok value := by
  exact exists_bind_eq_ok (exists_meanDistance hab hblocked name) fun near _ =>
    exists_bind_eq_ok (exists_meanDistance hab hbehind name) fun far _ => ⟨_, rfl⟩

theorem candidates_ne_nil {blocked : List (Nat × Nat)} {e : Nat × Nat} (he : e ∈ blocked) (h : m.Bridged e) :
    (ofInstructions m n is).candidates blocked ≠ [] := by
  obtain ⟨q, hq⟩ := h.2.exists_mem_neighbors h.1
  refine List.ne_nil_of_mem (a := (min e.1 q, max e.1 q)) ((mem_ascending linkBefore_total).mpr ?_)
  refine List.mem_flatMap.mpr ⟨e.1, List.mem_flatMap.mpr ⟨e, he, List.mem_cons_self⟩, List.mem_map.mpr ⟨q, ?_, rfl⟩⟩
  change q ∈ m.neighborTable.getD e.1 []
  rw [m.getD_neighborTable]
  exact hq

section Joined

-- From here on the operands of all gates on two qubits are in one part of the device.

variable (hlt : ∀ i ∈ is, ∀ q ∈ i.qubits, q < n) (hnd : ∀ i ∈ is, i.qubits.Nodup)
  (hjoined : AllLinks (fun _ a b => m.Joined a b) is)
include hlt hnd hjoined

theorem bridged_of_link (h : Reaches m n is s order waiting) (hi : i ∈ is) (hl : i.link? = some (a, b)) :
    m.Bridged (s.position a, s.position b) :=
  h.stays.bridged h.tracks (hlt i hi) (hnd i hi) hl (hjoined i hi a b hl)

theorem bridged_of_blocked? (h : Reaches m n is s order waiting) (hi : i ∈ is) {e : Nat × Nat}
    (hb : s.blocked? m i = some e) : m.Bridged e := by
  obtain ⟨a, b, hl, ha, hb⟩ := RouteState.blocked?_eq_some hb
  have hab := bridged_of_link hlt hnd hjoined h hi hl
  rwa [ha, hb] at hab

/-- A blocked gate has swaps to choose from, and all of them have scores. -/
theorem exists_bestSwap (h : Reaches m n is s order waiting)
    (hfirst : first ∈ (Dependencies.ofInstructions is).pick front) (hblocked : s.blocked? m first ≠ none)
    (decay : Array Float) : ∃ e, (ofInstructions m n is).bestSwap s decay front first = .ok e := by
  have hpairs : ∀ e ∈ (ofInstructions m n is).blockedPairs s front, m.Bridged e := by
    intro e he
    obtain ⟨i, hi, hb⟩ := List.mem_filterMap.mp he
    obtain ⟨k, -, hk⟩ := mem_pick.mp hi
    exact bridged_of_blocked? hlt hnd hjoined h (List.mem_of_getElem? hk) hb
  have hbehind : ∀ e ∈ ((ofInstructions m n is).dependencies.lookahead lookaheadSize front).map
      (fun e => (s.position e.1, s.position e.2)), m.Bridged e := by
    intro e he
    obtain ⟨d, hd, rfl⟩ := List.mem_map.mp he
    obtain ⟨i, hi, hl⟩ := Dependencies.exists_of_mem_lookahead hd
    exact bridged_of_link hlt hnd hjoined h hi hl
  obtain ⟨e, he⟩ := Option.ne_none_iff_exists'.mp hblocked
  have hmem : e ∈ (ofInstructions m n is).blockedPairs s front := List.mem_filterMap.mpr ⟨first, hfirst, he⟩
  have hsome : (ofInstructions m n is).candidates ((ofInstructions m n is).blockedPairs s front) ≠ [] :=
    candidates_ne_nil hmem (hpairs e hmem)
  refine exists_bind_eq_ok (exists_mapM_eq_ok_iff.mpr fun swap hswap => ?_) fun scored hscored => ?_
  · exact exists_bind_eq_ok (exists_score (isLinked_of_mem_candidates hswap) hpairs hbehind decay first.name)
      fun value _ => ⟨_, rfl⟩
  · have hne : scored ≠ [] := by
      rintro rfl
      exact hsome (List.forall₂_nil_right_iff.mp (mapM_eq_ok_iff.mp hscored))
    obtain ⟨best, hbest⟩ := exists_firstLeast? hne
    exact ⟨best, by rw [hbest]⟩

theorem exists_unblock (h : Reaches m n is s order waiting)
    (hfirst : first ∈ (Dependencies.ofInstructions is).pick front) (hdue : (ofInstructions m n is).due s front = [])
    (patience : Nat) (decay : Array Float) :
    ∃ t, (ofInstructions m n is).unblock front first patience decay s = .ok t := by
  obtain ⟨k, hk, hi⟩ := mem_pick.mp hfirst
  induction patience generalizing s decay with
  | zero =>
    rw [unblock]
    cases hb : s.blocked? (ofInstructions m n is).map first with
    | none => exact ⟨s, rfl⟩
    | some e =>
      exact RouteState.exists_walk (bridged_of_blocked? hlt hnd hjoined h (List.mem_of_getElem? hi) hb) first.name
  | succ patience ih =>
    have hblocked : s.blocked? m first ≠ none := fun hfree =>
      List.ne_nil_of_mem (mem_due.mpr ⟨hk, first, hi, hfree⟩) hdue
    rw [unblock]
    refine exists_bind_eq_ok (exists_bestSwap hlt hnd hjoined h hfirst hblocked decay) fun e he => ?_
    dsimp only
    split
    next hempty => exact ih (h.swap (isLinked_of_bestSwap he)) (List.isEmpty_iff.mp hempty) _
    next => exact ⟨_, rfl⟩

theorem exists_run (h : Reaches m n is s order waiting) (turns : Nat) :
    ∃ t, (ofInstructions m n is).run turns s waiting = .ok t := by
  induction turns generalizing s order waiting with
  | zero => exact ⟨s, rfl⟩
  | succ turns ih =>
    obtain ⟨released, hreleased⟩ := h.release waiting.length
    have hdue := (ofInstructions m n is).due_release_eq_nil s (Nat.le_refl waiting.length)
    rw [run]
    dsimp only
    split
    · exact ⟨_, rfl⟩
    next first hhead =>
      have hfirst := List.mem_of_head? hhead
      exact exists_bind_eq_ok (exists_unblock hlt hnd hjoined hreleased hfirst hdue _ _) fun t ht =>
        ih (hreleased.unblock hlt hnd hfirst ht).1

end Joined

end RouteProblem

theorem exists_routeLookahead_iff (hlt : ∀ i ∈ is, ∀ q ∈ i.qubits, q < n) (hnd : ∀ i ∈ is, i.qubits.Nodup)
    (hclbits : ∀ i ∈ is, i.clbits.Nodup) :
    (∃ t, routeLookahead m n is = .ok t) ↔ AllLinks (fun _ a b => m.Joined a b) is := by
  constructor
  · rintro ⟨t, ht⟩
    obtain ⟨order, waiting, hreaches, hfront⟩ := reaches_of_routeLookahead hlt hnd ht
    obtain rfl := eq_nil_of_front_eq_nil (fun _ hk => hreaches.lt_of_mem_waiting hk) hclbits hfront
    exact hreaches.allLinks_joined hlt
  · exact fun hjoined => RouteProblem.exists_run hlt hnd hjoined .start _

namespace Router

theorem exists_route_iff (r : Router) (hlt : ∀ i ∈ is, ∀ q ∈ i.qubits, q < n) (hnd : ∀ i ∈ is, i.qubits.Nodup)
    (hclbits : ∀ i ∈ is, i.clbits.Nodup) :
    (∃ t, r.route m n is = .ok t) ↔ AllLinks (fun _ a b => m.Joined a b) is := by
  cases r with
  | basic =>
    exact RouteState.exists_foldlM_routeNext_iff (RouteState.stays_start m n) (RouteState.tracks_start n) hlt hnd
  | lookahead => exact exists_routeLookahead_iff hlt hnd hclbits

/-- If no instruction lists a classical bit twice, either router succeeds exactly if the operands of every gate on two
qubits are in one part of the device. So both succeed on the same circuits, and on all circuits that fit on a device
whose qubits are all joined. -/
theorem exists_success_iff {c : Circuit Float} (hc : c.WellFormed) (hclbits : ∀ i ∈ c.instructions, i.clbits.Nodup) :
    (∀ r : Router, (∃ out, (r.pass m).run c = .success out) ↔
      AllLinks (fun _ a b => m.Joined a b) c.instructions) ∧
    ((∃ out, (Pass.basicRouting (some m)).run c = .success out) ↔
      ∃ out, (Pass.lookaheadRouting (some m)).run c = .success out) ∧
    ((∀ a < m.numQubits, ∀ b < m.numQubits, m.Joined a b) → c.numQubits ≤ m.numQubits →
      ∀ r : Router, ∃ out, (r.pass m).run c = .success out) := by
  have hiff (r : Router) : (∃ out, (r.pass m).run c = .success out) ↔
      AllLinks (fun _ a b => m.Joined a b) c.instructions := by
    rw [← r.exists_route_iff (hc.qubits_lt_widen m) hc.qubits_nodup hclbits, r.run_pass]
    simp only [Outcome.ofRoute_eq_success]
    constructor
    · rintro ⟨-, s, hs, -⟩
      exact ⟨s, hs⟩
    · rintro ⟨s, hs⟩
      exact ⟨_, s, hs, rfl⟩
  refine ⟨hiff, (hiff basic).trans (hiff lookahead).symm, fun hconnected hfit r => (hiff r).mpr ?_⟩
  intro i hi a b hl
  have hqs := (Instruction.link?_eq_some_iff.mp hl).1
  have hlt : ∀ q ∈ i.qubits, q < m.numQubits := fun q hq => (hc.qubits_lt i hi q hq).trans_le hfit
  exact hconnected a (hlt a (by simp [hqs])) b (hlt b (by simp [hqs]))

/-- A star joins all its qubits, so both routers bring together what is apart on it. -/
theorem exists_success_ghz : (Circuit.ghz 3 : Circuit Float).WellFormed ∧
    (∀ i ∈ (Circuit.ghz 3 : Circuit Float).instructions, i.clbits.Nodup) ∧
    (∀ a < (CouplingMap.star 3).numQubits, ∀ b < (CouplingMap.star 3).numQubits, (CouplingMap.star 3).Joined a b) ∧
    ∀ r : Router, ∃ out, (r.pass (.star 3)).run (.ghz 3) = .success out := by
  have hnd : ∀ i ∈ (Circuit.ghz 3 : Circuit Float).instructions, i.clbits.Nodup := by decide +kernel
  have hconnected : ∀ a < (CouplingMap.star 3).numQubits, ∀ b < (CouplingMap.star 3).numQubits,
      (CouplingMap.star 3).Joined a b := by
    intro a ha b hb
    have hall : ∀ a < 3, ∀ b < 3, ((CouplingMap.star 3).distance? a b).isSome := by decide +kernel
    exact (CouplingMap.isSome_distance?_iff.mp (hall a ha b hb)).2.2
  have hwf := Circuit.wellFormed_ghz (α := Float) 3
  exact ⟨hwf, hnd, hconnected, (exists_success_iff hwf hnd).2.2 hconnected (by decide +kernel)⟩

end Router

end CircuitStages
