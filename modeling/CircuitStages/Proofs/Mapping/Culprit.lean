import CircuitStages.Proofs.Mapping.Success

namespace CircuitStages

variable {α : Type} {m : CouplingMap} {n a b p q : Nat} {name : String} {is : List (Instruction α)}
  {i first : Instruction α} {s : RouteState α} {order waiting front : List Nat}

/-- Whether the operands of a gate on two qubits are in the parts of the device where the two positions are. -/
def Instruction.Concerns (m : CouplingMap) (i : Instruction α) (p q : Nat) : Prop :=
  ∃ a b, i.link? = some (a, b) ∧ m.Joined a p ∧ m.Joined b q

/-- Whether an error is right: no path links the positions, and they are those of a gate with the name. -/
def NamesCulprit (m : CouplingMap) (is : List (Instruction α)) (name : String) (p q : Nat) : Prop :=
  ¬ m.Joined p q ∧ ∃ i ∈ is, i.name = name ∧ i.Concerns m p q

/-- Whether lookahead routing is stuck on a gate: in a state that is reached nothing at the front can go out, and the
gate is the first there. -/
structure Stuck (m : CouplingMap) (n : Nat) (is : List (Instruction α)) (s : RouteState α) (waiting : List Nat)
    (first : Instruction α) : Prop where
  reaches : ∃ order, Reaches m n is s order waiting
  due_eq_nil : (RouteProblem.ofInstructions m n is).due s ((Dependencies.ofInstructions is).front waiting) = []
  head?_eq : ((Dependencies.ofInstructions is).pick ((Dependencies.ofInstructions is).front waiting)).head? = some first

/-- What holds of every error of lookahead routing: no path links the positions, which are those of some gate. The name
is that of a gate on which routing is stuck, and the positions are its own exactly if this gate cannot be routed. -/
structure Blames (m : CouplingMap) (n : Nat) (is : List (Instruction α)) (name : String) (p q : Nat) : Prop where
  apart : ¬ m.Joined p q
  concerned : ∃ i ∈ is, i.Concerns m p q
  named : ∃ s waiting, ∃ i ∈ is, Stuck m n is s waiting i ∧ i.name = name ∧
    ∃ a b, i.link? = some (a, b) ∧ (i.Concerns m p q ↔ ¬ m.Joined a b)

/-- If all gates on two qubits have the same name, there is none to mistake. -/
theorem Blames.namesCulprit (h : Blames m n is name p q)
    (hsame : ∀ i ∈ is, ∀ j ∈ is, i.link?.isSome → j.link?.isSome → i.name = j.name) : NamesCulprit m is name p q := by
  obtain ⟨i, hi, hconcerns⟩ := h.concerned
  obtain ⟨s, waiting, j, hj, -, rfl, a, b, hl, -⟩ := h.named
  have ⟨v, w, hvw, _, _⟩ := hconcerns
  exact ⟨h.apart, i, hi, hsame i hi j hj (by rw [hvw]; rfl) (by rw [hl]; rfl), hconcerns⟩

theorem Instruction.Concerns.swap (h : i.Concerns m p q) (hab : m.isLinked a b) :
    i.Concerns m (Equiv.swap a b p) (Equiv.swap a b q) := by
  obtain ⟨v, w, hl, hp, hq⟩ := h
  exact ⟨v, w, hl, hp.trans (.swap hab p), hq.trans (.swap hab q)⟩

/-- The positions are apart exactly if the operands are. -/
theorem Instruction.Concerns.joined_iff (h : i.Concerns m p q) (hl : i.link? = some (a, b)) :
    m.Joined p q ↔ m.Joined a b := by
  obtain ⟨v, w, hvw, hp, hq⟩ := h
  obtain ⟨rfl, rfl⟩ : v = a ∧ w = b := by simpa using hvw.symm.trans hl
  constructor
  · intro hpath
    exact (hp.trans hpath).trans hq.symm
  · intro hpath
    exact (hp.symm.trans hpath).trans hq

namespace RouteState

theorem Stays.concerns (h : Stays m n s) (hlt : ∀ q ∈ i.qubits, q < n) (hl : i.link? = some (a, b)) :
    i.Concerns m (s.position a) (s.position b) := by
  obtain ⟨ha, hb⟩ := i.lt_of_link? hl hlt
  exact ⟨a, b, hl, h a ha, h b hb⟩

/-- A walk fails with the name and the positions of its own gate. -/
theorem apart_of_walk (h : Stays m n s) (hs : Tracks n s) (hlt : ∀ q ∈ i.qubits, q < n) (hnd : i.qubits.Nodup)
    (hb : s.blocked? m i = some (a, b)) (he : s.walk m i.name a b = .error (.unroutable name p q)) :
    ¬ m.Joined p q ∧ i.name = name ∧ i.Concerns m p q := by
  obtain ⟨v, w, hl, rfl, rfl⟩ := blocked?_eq_some hb
  rw [walk] at he
  split at he
  next => cases he
  next hnone =>
    cases he
    refine ⟨?_, rfl, h.concerns hlt hl⟩
    intro hjoined
    obtain ⟨path, hpath⟩ := hjoined.exists_shortestPath? (hs.ne_of_link? hl hlt hnd)
    rw [hnone] at hpath
    cases hpath

theorem namesCulprit_of_routeNext (h : Stays m n s) (hs : Tracks n s) (hi : i ∈ is) (hlt : ∀ q ∈ i.qubits, q < n)
    (hnd : i.qubits.Nodup) (he : s.routeNext m i = .error (.unroutable name p q)) : NamesCulprit m is name p q := by
  rw [routeNext] at he
  cases hb : s.blocked? m i with
  | none =>
    rw [hb] at he
    cases he
  | some e =>
    simp only [hb, bind_eq_error] at he
    rcases he with hwalk | ⟨t, -, hemit⟩
    · obtain ⟨hapart, hname, hconcerns⟩ := apart_of_walk h hs hlt hnd hb hwalk
      exact ⟨hapart, i, hi, hname, hconcerns⟩
    · cases hemit

/-- Basic routing names the culprit. -/
theorem namesCulprit_of_foldlM {js : List (Instruction α)} (hjs : ∀ j ∈ js, j ∈ is) (h : Stays m n s)
    (hs : Tracks n s) (hlt : ∀ i ∈ is, ∀ q ∈ i.qubits, q < n) (hnd : ∀ i ∈ is, i.qubits.Nodup)
    (he : js.foldlM (routeNext m) s = .error (.unroutable name p q)) : NamesCulprit m is name p q := by
  induction js generalizing s with
  | nil => cases he
  | cons j js ih =>
    obtain ⟨hj, hrest⟩ := List.forall_mem_cons.mp hjs
    rw [List.foldlM_cons, bind_eq_error] at he
    rcases he with hfail | ⟨t, ht, he⟩
    · exact namesCulprit_of_routeNext h hs hj (hlt j hj) (hnd j hj) hfail
    · obtain ⟨es, rfl, hes, -⟩ := exists_swaps_of_routeNext ht hs (hlt j hj) (hnd j hj)
      exact ih hrest ((h.swaps hs hes).emit j) ((hs.swaps es).emit j) he

end RouteState

namespace RouteProblem

/-- A mean distance does not exist if some pair of positions is apart, and the first such pair is told. -/
theorem exists_of_meanDistance_eq_error {pairs : List (Nat × Nat)} {e : CircuitError}
    (h : (ofInstructions m n is).meanDistance name (a, b) pairs = .error e) :
    ∃ d ∈ pairs, m.distance? (Equiv.swap a b d.1) (Equiv.swap a b d.2) = none ∧
      e = .unroutable name (Equiv.swap a b d.1) (Equiv.swap a b d.2) := by
  rw [meanDistance, bind_eq_error] at h
  rcases h with hfold | ⟨total, -, hpure⟩
  · obtain ⟨d, hd, total, hstep⟩ := exists_of_foldlM_eq_error hfold
    simp only [exchange_eq_swap, distance?, ofInstructions, m.getD_distances] at hstep
    split at hstep
    next => cases hstep
    next hnone =>
      cases hstep
      exact ⟨d, hd, hnone, rfl⟩
  · cases hpure

theorem meanDistance_of_head_apart {d : Nat × Nat} {pairs : List (Nat × Nat)}
    (h : m.distance? (Equiv.swap a b d.1) (Equiv.swap a b d.2) = none) :
    (ofInstructions m n is).meanDistance name (a, b) (d :: pairs) =
      .error (.unroutable name (Equiv.swap a b d.1) (Equiv.swap a b d.2)) := by
  simp only [meanDistance, List.foldlM_cons, exchange_eq_swap, distance?, ofInstructions, m.getD_distances, h]
  rfl

theorem exists_of_score_eq_error {decay : Array Float} {blocked behind : List (Nat × Nat)} {e : CircuitError}
    (h : (ofInstructions m n is).score decay name blocked behind (a, b) = .error e) :
    ∃ d ∈ blocked ++ behind, m.distance? (Equiv.swap a b d.1) (Equiv.swap a b d.2) = none ∧
      e = .unroutable name (Equiv.swap a b d.1) (Equiv.swap a b d.2) := by
  simp only [score, bind_eq_error] at h
  rcases h with hnear | ⟨near, -, hfar | ⟨far, -, hpure⟩⟩
  · obtain ⟨d, hd, hresult⟩ := exists_of_meanDistance_eq_error hnear
    exact ⟨d, List.mem_append_left _ hd, hresult⟩
  · obtain ⟨d, hd, hresult⟩ := exists_of_meanDistance_eq_error hfar
    exact ⟨d, List.mem_append_right _ hd, hresult⟩
  · cases hpure

end RouteProblem

namespace Stuck

theorem mem (h : Stuck m n is s waiting first) : first ∈ is := by
  obtain ⟨k, -, hk⟩ := mem_pick.mp (List.mem_of_head? h.head?_eq)
  exact List.mem_of_getElem? hk

/-- The gate is blocked. -/
theorem exists_link (h : Stuck m n is s waiting first) : ∃ a b, first.link? = some (a, b) ∧
    s.blocked? m first = some (s.position a, s.position b) := by
  obtain ⟨k, hk, hi⟩ := mem_pick.mp (List.mem_of_head? h.head?_eq)
  have hblocked : s.blocked? m first ≠ none := fun hfree =>
    List.ne_nil_of_mem (RouteProblem.mem_due.mpr ⟨hk, first, hi, hfree⟩) h.due_eq_nil
  obtain ⟨e, he⟩ := Option.ne_none_iff_exists'.mp hblocked
  obtain ⟨a, b, hl, ha, hb⟩ := RouteState.blocked?_eq_some he
  exact ⟨a, b, hl, by rw [he, ha, hb]⟩

/-- Its positions are the first of those that are blocked. -/
theorem exists_blockedPairs (h : Stuck m n is s waiting first) {e : Nat × Nat} (he : s.blocked? m first = some e) :
    ∃ rest, (RouteProblem.ofInstructions m n is).blockedPairs s ((Dependencies.ofInstructions is).front waiting) =
      e :: rest := by
  obtain ⟨tail, htail⟩ := List.head?_eq_some_iff.mp h.head?_eq
  refine ⟨tail.filterMap (s.blocked? m), ?_⟩
  change List.filterMap (s.blocked? m) ((Dependencies.ofInstructions is).pick _) = _
  rw [htail, List.filterMap_cons_some he]

theorem swap (h : Stuck m n is s waiting first) (hab : m.isLinked a b)
    (hdue : (RouteProblem.ofInstructions m n is).due (s.swap a b) ((Dependencies.ofInstructions is).front waiting) = []) :
    Stuck m n is (s.swap a b) waiting first := by
  obtain ⟨order, hreaches⟩ := h.reaches
  exact ⟨⟨order, hreaches.swap hab⟩, hdue, h.head?_eq⟩

theorem blames (h : Stuck m n is s waiting first) (hapart : ¬ m.Joined p q) (hconcerns : first.Concerns m p q) :
    Blames m n is first.name p q := by
  obtain ⟨a, b, hl, -⟩ := h.exists_link
  have hoperands : ¬ m.Joined a b := by rwa [← hconcerns.joined_iff hl]
  exact ⟨hapart, ⟨first, h.mem, hconcerns⟩, s, waiting, first, h.mem, h, rfl, a, b, hl,
    iff_of_true hconcerns hoperands⟩

end Stuck

namespace RouteProblem

section Blame

-- From here on the operands of all instructions are distinct wires of the device.

variable (hlt : ∀ i ∈ is, ∀ q ∈ i.qubits, q < n) (hnd : ∀ i ∈ is, i.qubits.Nodup)
include hlt hnd

theorem concerned_of_link (h : Reaches m n is s order waiting) (hi : i ∈ is) (hl : i.link? = some (a, b)) :
    s.position a ≠ s.position b ∧ i.Concerns m (s.position a) (s.position b) :=
  ⟨h.tracks.ne_of_link? hl (hlt i hi) (hnd i hi), h.stays.concerns (hlt i hi) hl⟩

theorem concerned_of_mem_blockedPairs (h : Reaches m n is s order waiting) {e : Nat × Nat}
    (he : e ∈ (ofInstructions m n is).blockedPairs s front) : e.1 ≠ e.2 ∧ ∃ i ∈ is, i.Concerns m e.1 e.2 := by
  obtain ⟨i, hi, hb⟩ := List.mem_filterMap.mp he
  obtain ⟨k, -, hk⟩ := mem_pick.mp hi
  have hmem : i ∈ is := List.mem_of_getElem? hk
  obtain ⟨a, b, hl, ha, hb⟩ := RouteState.blocked?_eq_some hb
  obtain ⟨hne, hconcerns⟩ := concerned_of_link hlt hnd h hmem hl
  rw [ha, hb] at hne hconcerns
  exact ⟨hne, i, hmem, hconcerns⟩

theorem concerned_of_mem_lookahead (h : Reaches m n is s order waiting) {limit : Nat} {e : Nat × Nat}
    (he : e ∈ ((Dependencies.ofInstructions is).lookahead limit front).map
      fun e => (s.position e.1, s.position e.2)) : e.1 ≠ e.2 ∧ ∃ i ∈ is, i.Concerns m e.1 e.2 := by
  obtain ⟨d, hd, rfl⟩ := List.mem_map.mp he
  obtain ⟨i, hi, hl⟩ := Dependencies.exists_of_mem_lookahead hd
  obtain ⟨hne, hconcerns⟩ := concerned_of_link hlt hnd h hi hl
  exact ⟨hne, i, hi, hconcerns⟩

/-- The gate that routing is stuck on is asked first, so its own positions are told if no path links them. -/
theorem blames_of_score (h : Stuck m n is s waiting first) (hab : m.isLinked a b) {decay : Array Float}
    {behind : List (Nat × Nat)} (hbehind : ∀ e ∈ behind, e.1 ≠ e.2 ∧ ∃ i ∈ is, i.Concerns m e.1 e.2)
    (he : (ofInstructions m n is).score decay first.name
      ((ofInstructions m n is).blockedPairs s ((Dependencies.ofInstructions is).front waiting)) behind (a, b) =
        .error (.unroutable name p q)) : Blames m n is name p q := by
  obtain ⟨order, hreaches⟩ := h.reaches
  obtain ⟨v, w, hl, hb⟩ := h.exists_link
  by_cases hjoined : m.Joined v w
  · obtain ⟨d, hd, hnone, heq⟩ := exists_of_score_eq_error he
    cases heq
    obtain ⟨hne, i, hi, hconcerns⟩ : d.1 ≠ d.2 ∧ ∃ i ∈ is, i.Concerns m d.1 d.2 := by
      rcases List.mem_append.mp hd with hd | hd
      · exact concerned_of_mem_blockedPairs hlt hnd hreaches hd
      · exact hbehind d hd
    have hapart : ¬ m.Joined (Equiv.swap a b d.1) (Equiv.swap a b d.2) := by
      intro hpath
      obtain ⟨k, hk⟩ := hpath.exists_distance? ((Equiv.swap a b).injective.ne hne)
      rw [hnone] at hk
      cases hk
    refine ⟨hapart, ⟨i, hi, hconcerns.swap hab⟩, s, waiting, first, h.mem, h, rfl, v, w, hl, ?_⟩
    exact iff_of_false (fun hown => hapart ((hown.joined_iff hl).mpr hjoined)) (not_not.mpr hjoined)
  · have hconcerns := (hreaches.stays.concerns (hlt first h.mem) hl).swap hab
    have hapart : ¬ m.Joined (Equiv.swap a b (s.position v)) (Equiv.swap a b (s.position w)) := by
      rwa [hconcerns.joined_iff hl]
    have hnone : m.distance? (Equiv.swap a b (s.position v)) (Equiv.swap a b (s.position w)) = none := by
      rw [← Option.not_isSome_iff_eq_none, CouplingMap.isSome_distance?_iff]
      exact fun hfound => hapart hfound.2.2
    obtain ⟨rest, hrest⟩ := h.exists_blockedPairs hb
    rw [hrest, score, meanDistance_of_head_apart hnone] at he
    cases he
    exact h.blames hapart hconcerns

/-- Where there is no swap to choose from, the gate cannot be routed. -/
theorem not_joined_of_candidates_eq_nil (h : Stuck m n is s waiting first) (hl : first.link? = some (a, b))
    (hb : s.blocked? m first = some (s.position a, s.position b))
    (hnone : (ofInstructions m n is).candidates
      ((ofInstructions m n is).blockedPairs s ((Dependencies.ofInstructions is).front waiting)) = []) :
    ¬ m.Joined (s.position a) (s.position b) := by
  obtain ⟨order, hreaches⟩ := h.reaches
  obtain ⟨rest, hrest⟩ := h.exists_blockedPairs hb
  have hne := (concerned_of_link hlt hnd hreaches h.mem hl).1
  intro hjoined
  rw [hrest] at hnone
  exact candidates_ne_nil List.mem_cons_self ⟨hne, hjoined⟩ hnone

theorem blames_of_bestSwap (h : Stuck m n is s waiting first) {decay : Array Float}
    (he : (ofInstructions m n is).bestSwap s decay ((Dependencies.ofInstructions is).front waiting) first =
      .error (.unroutable name p q)) : Blames m n is name p q := by
  obtain ⟨order, hreaches⟩ := h.reaches
  rw [bestSwap, bind_eq_error] at he
  rcases he with hscores | ⟨scored, hscored, hnone⟩
  · obtain ⟨before, swap, after, hswaps, -, hfail⟩ := exists_first_of_mapM_eq_error hscores
    have hmem : swap ∈ (ofInstructions m n is).candidates
        ((ofInstructions m n is).blockedPairs s ((Dependencies.ofInstructions is).front waiting)) := by
      rw [hswaps]
      exact List.mem_append_right before List.mem_cons_self
    rw [bind_eq_error] at hfail
    rcases hfail with hscore | ⟨value, -, hpure⟩
    · exact blames_of_score hlt hnd h (isLinked_of_mem_candidates hmem)
        (fun e he => concerned_of_mem_lookahead hlt hnd hreaches he) hscore
    · cases hpure
  · split at hnone
    next => cases hnone
    next hempty =>
      obtain ⟨a, b, hl, hb⟩ := h.exists_link
      have hnil : scored = [] := by
        by_contra hne
        obtain ⟨best, hbest⟩ := exists_firstLeast? hne
        rw [hempty] at hbest
        cases hbest
      rw [hnil] at hscored
      have hapart := not_joined_of_candidates_eq_nil hlt hnd h hl hb
        (List.forall₂_nil_right_iff.mp (mapM_eq_ok_iff.mp hscored))
      change Except.error (CircuitError.unroutable first.name ((s.blocked? m first).getD (0, 0)).1
        ((s.blocked? m first).getD (0, 0)).2) = _ at hnone
      rw [hb] at hnone
      cases hnone
      exact h.blames hapart (concerned_of_link hlt hnd hreaches h.mem hl).2

theorem blames_of_unblock (h : Stuck m n is s waiting first) {patience : Nat} {decay : Array Float}
    (he : (ofInstructions m n is).unblock ((Dependencies.ofInstructions is).front waiting) first patience decay s =
      .error (.unroutable name p q)) : Blames m n is name p q := by
  induction patience generalizing s decay with
  | zero =>
    obtain ⟨order, hreaches⟩ := h.reaches
    rw [unblock] at he
    split at he
    next a b hb =>
      obtain ⟨hapart, hname, hconcerns⟩ :=
        RouteState.apart_of_walk hreaches.stays hreaches.tracks (hlt first h.mem) (hnd first h.mem) hb he
      rw [← hname]
      exact h.blames hapart hconcerns
    next => cases he
  | succ patience ih =>
    rw [unblock, bind_eq_error] at he
    rcases he with hbest | ⟨e, hbest, he⟩
    · exact blames_of_bestSwap hlt hnd h hbest
    · dsimp only at he
      split at he
      next hempty => exact ih (h.swap (isLinked_of_bestSwap hbest) (List.isEmpty_iff.mp hempty)) he
      next => cases he

theorem blames_of_run (h : Reaches m n is s order waiting) {turns : Nat}
    (he : (ofInstructions m n is).run turns s waiting = .error (.unroutable name p q)) : Blames m n is name p q := by
  induction turns generalizing s order waiting with
  | zero => cases he
  | succ turns ih =>
    obtain ⟨released, hreleased⟩ := h.release waiting.length
    have hdue := (ofInstructions m n is).due_release_eq_nil s (Nat.le_refl waiting.length)
    rw [run] at he
    dsimp only at he
    split at he
    next => cases he
    next first hfirst =>
      rw [bind_eq_error] at he
      rcases he with hunblock | ⟨t, ht, he⟩
      · exact blames_of_unblock hlt hnd ⟨⟨released, hreleased⟩, hdue, hfirst⟩ hunblock
      · exact ih (hreleased.unblock hlt hnd (List.mem_of_head? hfirst) ht).1 he

end Blame

end RouteProblem

namespace Router

/-- Whenever basic routing fails, no path links the positions that its error gives, and they are in the parts of the
device where the operands of a gate of that name are. Whenever lookahead routing fails, no path links the positions
either, and they are in the parts of some gate, but the name is that of the first blocked gate: if this gate can be
routed, the positions are not its own. Only if it cannot, or if all gates on two qubits have the same name, name and
positions belong together for sure. -/
theorem blames_of_error {c : Circuit Float} (hc : c.WellFormed) (r : Router)
    (h : ((r.pass m).run c).error = some (.circuit (.unroutable name p q))) :
    (r = basic → NamesCulprit m c.instructions name p q) ∧
    (r = lookahead → Blames m (c.widen m).numQubits c.instructions name p q) ∧
    ((∀ i ∈ c.instructions, ∀ j ∈ c.instructions, i.link?.isSome → j.link?.isSome → i.name = j.name) →
      NamesCulprit m c.instructions name p q) := by
  rw [r.run_pass, Outcome.error_ofRoute] at h
  have hlt := hc.qubits_lt_widen m
  have hnd := hc.qubits_nodup
  cases r with
  | basic =>
    have hculprit : NamesCulprit m c.instructions name p q :=
      RouteState.namesCulprit_of_foldlM (fun _ hj => hj) (RouteState.stays_start m _) (RouteState.tracks_start _) hlt
        hnd h
    exact ⟨fun _ => hculprit, nofun, fun _ => hculprit⟩
  | lookahead =>
    have hblames := RouteProblem.blames_of_run hlt hnd .start h
    exact ⟨nofun, fun _ => hblames, hblames.namesCulprit⟩

end Router

/-- Three linked qubits and one apart from them. -/
def CouplingMap.withOutsider : CouplingMap := (ofEdges [(0, 1), (1, 2)]).grow 4

/-- A gate that can be routed there, and one that cannot. -/
def Circuit.halfRoutable : Circuit Float :=
  (Circuit.empty "half_routable" 4 0).withInstructions [.cx 0 2, .cz 1 3]

theorem Circuit.wellFormed_halfRoutable : halfRoutable.WellFormed := by
  constructor <;>
    simp [halfRoutable, withInstructions, Circuit.empty, Instruction.cx, Instruction.cz, Instruction.gate,
      singleQubitNames]

namespace Router

theorem error_halfRoutable (r : Router) : ((r.pass .withOutsider).run .halfRoutable).error =
    some (.circuit (.unroutable (match r with | basic => "cz" | lookahead => "cx") 0 3)) := by
  rw [run_pass, Outcome.error_ofRoute, ← errorOf?_eq_some_iff]
  cases r <;> decide +kernel

theorem blames_of_error_halfRoutable : Circuit.halfRoutable.WellFormed ∧
    ((basic.pass .withOutsider).run .halfRoutable).error = some (.circuit (.unroutable "cz" 0 3)) ∧
    NamesCulprit .withOutsider Circuit.halfRoutable.instructions "cz" 0 3 ∧
    ((lookahead.pass .withOutsider).run .halfRoutable).error = some (.circuit (.unroutable "cx" 0 3)) ∧
    Blames .withOutsider 4 Circuit.halfRoutable.instructions "cx" 0 3 := by
  have hwf := Circuit.wellFormed_halfRoutable
  have hbasic := error_halfRoutable basic
  have hlookahead := error_halfRoutable lookahead
  refine ⟨hwf, hbasic, ?_, hlookahead, ?_⟩
  · exact (blames_of_error hwf basic hbasic).1 rfl
  · exact (blames_of_error hwf lookahead hlookahead).2.1 rfl

/-- Lookahead routing gives the name of the gate that it could route. -/
theorem not_namesCulprit_halfRoutable : Circuit.halfRoutable.WellFormed ∧
    ((lookahead.pass .withOutsider).run .halfRoutable).error = some (.circuit (.unroutable "cx" 0 3)) ∧
    ¬ NamesCulprit .withOutsider Circuit.halfRoutable.instructions "cx" 0 3 := by
  refine ⟨Circuit.wellFormed_halfRoutable, error_halfRoutable lookahead, ?_⟩
  rintro ⟨-, i, hi, hname, a, b, hl, -, hb⟩
  -- The only gate of that name asks for qubit 2, and 3 is apart from it.
  have hoperands : ∀ i ∈ Circuit.halfRoutable.instructions, i.name = "cx" → i.link? = some (0, 2) := by
    simp [Circuit.halfRoutable, Circuit.withInstructions, Instruction.cx, Instruction.cz, Instruction.gate,
      Instruction.link?, Instruction.isGate, Instruction.isMeasure, Instruction.isReset, Instruction.isBarrier,
      Instruction.isControlFlow, Instruction.isDelay, controlFlowNames]
  cases hl.symm.trans (hoperands i hi hname)
  have hnone : (CouplingMap.withOutsider.distance? 2 3).isSome = false := by decide +kernel
  have hsome := CouplingMap.isSome_distance?_iff.mpr ⟨by decide, by decide, hb⟩
  rw [hnone] at hsome
  cases hsome

end Router

end CircuitStages
