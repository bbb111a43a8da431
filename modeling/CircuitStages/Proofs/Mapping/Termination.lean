import CircuitStages.Proofs.Device.Distance
import CircuitStages.Proofs.Mapping.InPlace

namespace CircuitStages

variable {α : Type}

/-- What a turn of the loop does. -/
inductive RouteEvent where
  | released
  | swapped
  | walked
deriving DecidableEq

/-- Routing with lookahead between two turns of the loop. -/
structure RouteLoop (α : Type) where
  state : RouteState α
  waiting : List Nat
  /-- How many swaps have been chosen by score since the last turn of another kind. -/
  tries : Nat
  decay : Array Float

namespace RouteProblem

variable {r : RouteProblem α} {l l' : RouteLoop α} {s t : RouteState α} {waiting front due : List Nat}
  {first : Instruction α} {tries : Nat} {decay : Array Float} {event : RouteEvent} {events : List RouteEvent}
  {result : Except CircuitError (RouteState α)}

/-- The weights of the qubits when nothing has been swapped. -/
def freshDecay (r : RouteProblem α) : Array Float := Array.replicate r.numQubits 1.0

/-- Leads a gate along a shortest path if it is blocked. -/
def lead (r : RouteProblem α) (s : RouteState α) (first : Instruction α) : Except CircuitError (RouteState α) :=
  match s.blocked? r.map first with
  | some (a, b) => s.walk r.map first.name a b
  | none => .ok s

/-- One turn of the loop, or nothing once the front is empty. -/
def turn (r : RouteProblem α) (l : RouteLoop α) : Except CircuitError (Option (RouteEvent × RouteLoop α)) :=
  let front := r.dependencies.front l.waiting
  let due := r.due l.state front
  if due.isEmpty then
    match (r.dependencies.pick front).head? with
    | none => .ok none
    | some first =>
      if l.tries < r.patience then do
        let (a, b) ← r.bestSwap l.state l.decay front first
        let s := l.state.swap a b
        pure (some (.swapped, ⟨s, l.waiting, l.tries + 1, r.decayAfter s l.decay a b⟩))
      else do
        let s ← r.lead l.state first
        pure (some (.walked, ⟨s, l.waiting, 0, r.freshDecay⟩))
  else .ok (some (.released,
    ⟨(r.dependencies.pick due).foldl .emit l.state, l.waiting.filter fun i => !due.contains i, 0, r.freshDecay⟩))

/-- The loop before its first turn. -/
def loopStart (r : RouteProblem α) : RouteLoop α :=
  ⟨.start r.numQubits, List.range r.dependencies.instructions.size, 0, r.freshDecay⟩

/-- The loop ends after these turns, with this result. -/
inductive Ends (r : RouteProblem α) : RouteLoop α → List RouteEvent → Except CircuitError (RouteState α) → Prop
  | stop {l : RouteLoop α} : r.turn l = .ok none → Ends r l [] (.ok l.state)
  | fault {l : RouteLoop α} {e : CircuitError} : r.turn l = .error e → Ends r l [] (.error e)
  | next {l l' : RouteLoop α} {event : RouteEvent} {events : List RouteEvent}
      {result : Except CircuitError (RouteState α)} :
      r.turn l = .ok (some (event, l')) → Ends r l' events result → Ends r l (event :: events) result

theorem turn_of_due (hdue : r.due l.state (r.dependencies.front l.waiting) = due) (hne : due ≠ []) :
    r.turn l = .ok (some (.released, ⟨(r.dependencies.pick due).foldl .emit l.state,
      l.waiting.filter fun i => !due.contains i, 0, r.freshDecay⟩)) := by
  subst hdue
  exact if_neg fun hempty => hne (List.isEmpty_iff.mp hempty)

theorem turn_of_done (hdue : r.due l.state (r.dependencies.front l.waiting) = [])
    (hfirst : (r.dependencies.pick (r.dependencies.front l.waiting)).head? = none) : r.turn l = .ok none := by
  simp only [turn, hdue, hfirst]
  rfl

theorem turn_of_blocked (hdue : r.due l.state (r.dependencies.front l.waiting) = [])
    (hfirst : (r.dependencies.pick (r.dependencies.front l.waiting)).head? = some first) :
    r.turn l =
      if l.tries < r.patience then (do
        let e ← r.bestSwap l.state l.decay (r.dependencies.front l.waiting) first
        pure (some (.swapped, ⟨l.state.swap e.1 e.2, l.waiting, l.tries + 1,
          r.decayAfter (l.state.swap e.1 e.2) l.decay e.1 e.2⟩)))
      else (do
        let s ← r.lead l.state first
        pure (some (.walked, ⟨s, l.waiting, 0, r.freshDecay⟩))) := by
  simp only [turn, hdue, hfirst]
  rfl

/-- All that a turn can do. -/
theorem turn_cases (h : r.turn l = .ok (some (event, l')))
    (hdue : r.due l.state (r.dependencies.front l.waiting) = due) :
    (event = .released ∧ due ≠ [] ∧ l' = ⟨(r.dependencies.pick due).foldl .emit l.state,
      l.waiting.filter fun i => !due.contains i, 0, r.freshDecay⟩) ∨
    (due = [] ∧ ∃ first, (r.dependencies.pick (r.dependencies.front l.waiting)).head? = some first ∧
      ((event = .swapped ∧ l.tries < r.patience ∧ ∃ e decay,
          r.bestSwap l.state l.decay (r.dependencies.front l.waiting) first = .ok e ∧
          l' = ⟨l.state.swap e.1 e.2, l.waiting, l.tries + 1, decay⟩) ∨
        (event = .walked ∧ ∃ s, r.lead l.state first = .ok s ∧ l' = ⟨s, l.waiting, 0, r.freshDecay⟩))) := by
  by_cases hne : due = []
  · subst hne
    refine .inr ⟨rfl, ?_⟩
    cases hfirst : (r.dependencies.pick (r.dependencies.front l.waiting)).head? with
    | none =>
      rw [turn_of_done hdue hfirst] at h
      cases h
    | some first =>
      rw [turn_of_blocked hdue hfirst] at h
      split at h
      next htries =>
        obtain ⟨e, he, h⟩ := bind_eq_ok.mp h
        cases pure_eq_ok.mp h
        exact ⟨first, rfl, .inl ⟨rfl, htries, e, _, he, rfl⟩⟩
      next =>
        obtain ⟨s, hs, h⟩ := bind_eq_ok.mp h
        cases pure_eq_ok.mp h
        exact ⟨first, rfl, .inr ⟨rfl, s, hs, rfl⟩⟩
  · rw [turn_of_due hdue hne] at h
    cases h
    exact .inl ⟨rfl, hne, rfl⟩

/-- The loop only stops where nothing is at the front. -/
theorem turn_eq_none (h : r.turn l = .ok none) : r.due l.state (r.dependencies.front l.waiting) = [] ∧
    (r.dependencies.pick (r.dependencies.front l.waiting)).head? = none := by
  by_cases hdue : r.due l.state (r.dependencies.front l.waiting) = []
  · refine ⟨hdue, ?_⟩
    cases hfirst : (r.dependencies.pick (r.dependencies.front l.waiting)).head? with
    | none => rfl
    | some first =>
      rw [turn_of_blocked hdue hfirst] at h
      split at h
      · obtain ⟨e, -, h⟩ := bind_eq_ok.mp h
        cases h
      · obtain ⟨s, -, h⟩ := bind_eq_ok.mp h
        cases h
  · rw [turn_of_due rfl hdue] at h
    cases h

namespace Ends

/-- The turns that release go as far as a release does. A loop that has not just begun has something to release. -/
theorem of_release {rounds : Nat} (hle : waiting.length ≤ rounds)
    (hfresh : (tries = 0 ∧ decay = r.freshDecay) ∨ r.due s (r.dependencies.front waiting) ≠ [])
    (h : ∃ events, r.Ends ⟨(r.release rounds s waiting).1, (r.release rounds s waiting).2, 0, r.freshDecay⟩
      events result) : ∃ events, r.Ends ⟨s, waiting, tries, decay⟩ events result := by
  induction rounds generalizing s waiting tries decay with
  | zero =>
    obtain rfl := List.length_eq_zero_iff.mp (Nat.le_zero.mp hle)
    obtain ⟨rfl, rfl⟩ := hfresh.resolve_right fun hdue => hdue rfl
    exact h
  | succ rounds ih =>
    by_cases hdue : r.due s (r.dependencies.front waiting) = []
    · obtain ⟨rfl, rfl⟩ := hfresh.resolve_right fun hne => hne hdue
      rwa [release, hdue] at h
    · have hless := r.length_filter_due_lt s waiting hdue
      rw [release, if_neg (by simpa using hdue)] at h
      obtain ⟨events, hevents⟩ := ih (Nat.le_of_lt_succ (hless.trans_le hle)) (.inl ⟨rfl, rfl⟩) h
      exact ⟨_, .next (turn_of_due rfl hdue) hevents⟩

/-- The turns on a blocked front go as far as unblocking does. -/
theorem of_unblock {patience : Nat} (hfront : r.dependencies.front waiting = front) (hdue : r.due s front = [])
    (hfirst : (r.dependencies.pick front).head? = some first) (hpatience : tries + patience = r.patience)
    (herror : ∀ e, r.unblock front first patience decay s = .error e → result = .error e)
    (hok : ∀ t, r.unblock front first patience decay s = .ok t →
      ∀ tries decay, ∃ events, r.Ends ⟨t, waiting, tries, decay⟩ events result) :
    ∃ events, r.Ends ⟨s, waiting, tries, decay⟩ events result := by
  subst hfront
  have hturn := turn_of_blocked (l := ⟨s, waiting, tries, decay⟩) hdue hfirst
  induction patience generalizing s tries decay with
  | zero =>
    rw [if_neg (by dsimp only; omega)] at hturn
    cases hlead : r.lead s first with
    | error e =>
      rw [herror e hlead]
      simp only [hlead] at hturn
      exact ⟨_, .fault hturn⟩
    | ok t =>
      obtain ⟨events, hevents⟩ := hok t hlead 0 r.freshDecay
      simp only [hlead] at hturn
      exact ⟨_, .next hturn hevents⟩
  | succ patience ih =>
    rw [if_pos (by dsimp only; omega)] at hturn
    rw [unblock] at herror hok
    cases hbest : r.bestSwap s decay (r.dependencies.front waiting) first with
    | error e =>
      rw [hbest] at herror
      rw [herror e rfl]
      simp only [hbest] at hturn
      exact ⟨_, .fault hturn⟩
    | ok e =>
      rw [hbest] at herror hok
      simp only [hbest] at hturn
      have hlater : ∃ events, r.Ends ⟨s.swap e.1 e.2, waiting, tries + 1, r.decayAfter (s.swap e.1 e.2) decay e.1 e.2⟩
          events result := by
        by_cases hstill : r.due (s.swap e.1 e.2) (r.dependencies.front waiting) = []
        · refine ih (by omega) hstill (fun d hd => herror d ?_) (fun t ht => hok t ?_) (turn_of_blocked hstill hfirst)
          · exact (if_pos (List.isEmpty_iff.mpr hstill)).trans hd
          · exact (if_pos (List.isEmpty_iff.mpr hstill)).trans ht
        · exact hok _ (if_neg fun hempty => hstill (List.isEmpty_iff.mp hempty)) _ _
      obtain ⟨events, hevents⟩ := hlater
      exact ⟨_, .next hturn hevents⟩

end Ends

section Circuit

variable {m : CouplingMap} {n : Nat} {is : List (Instruction α)} {order : List Nat}

/-- The loop ends, and the rounds and turns that `run` has are enough for it. -/
theorem ends_run (h : Reaches m n is s order waiting) (hlt : ∀ i ∈ is, ∀ q ∈ i.qubits, q < n)
    (hnd : ∀ i ∈ is, i.qubits.Nodup) {turns : Nat}
    (hturns : waiting.length < turns ∨ (waiting.length ≤ turns ∧
      (ofInstructions m n is).due s ((Dependencies.ofInstructions is).front waiting) ≠ []))
    (hfresh : (tries = 0 ∧ decay = (ofInstructions m n is).freshDecay) ∨
      (ofInstructions m n is).due s ((Dependencies.ofInstructions is).front waiting) ≠ []) :
    ∃ events, (ofInstructions m n is).Ends ⟨s, waiting, tries, decay⟩ events
      ((ofInstructions m n is).run turns s waiting) := by
  induction turns generalizing s order waiting tries decay with
  | zero =>
    rcases hturns with hless | ⟨hle, hdue⟩
    · exact absurd hless (Nat.not_lt_zero _)
    · rw [List.length_eq_zero_iff.mp (Nat.le_zero.mp hle)] at hdue
      exact absurd rfl hdue
  | succ turns ih =>
    obtain ⟨released, hreleased⟩ := h.release waiting.length
    have hle : ((ofInstructions m n is).release waiting.length s waiting).2.length ≤ turns := by
      rcases hturns with hless | ⟨hle, hdue⟩
      · exact (length_release_le _ _ _ _).trans (Nat.le_of_lt_succ hless)
      · exact Nat.le_of_lt_succ ((length_release_lt _ _ _ hdue).trans_le hle)
    have hdone := (ofInstructions m n is).due_release_eq_nil s (Nat.le_refl waiting.length)
    refine Ends.of_release (Nat.le_refl _) hfresh ?_
    rw [run]
    dsimp only
    split
    next hnone => exact ⟨_, .stop (turn_of_done hdone hnone)⟩
    next first hfirst =>
      refine Ends.of_unblock rfl hdone hfirst (Nat.zero_add _) (fun e he => ?_) fun t ht tries decay => ?_
      · exact congrArg (· >>= _) he
      · obtain ⟨hreached, hdue⟩ := hreleased.unblock hlt hnd (List.mem_of_head? hfirst) ht
        obtain ⟨events, hevents⟩ := ih hreached (.inr ⟨hle, hdue⟩) (.inr hdue)
        exact ⟨events, (congrArg (· >>= _) ht).symm ▸ hevents⟩

/-- How many gates on two qubits there are among the instructions with these numbers. -/
def linkCount (is : List (Instruction α)) (ks : List Nat) : Nat := (ks.filterMap (is[·]?)).countP (·.link?.isSome)

theorem linkCount_range (is : List (Instruction α)) : linkCount is (List.range is.length) =
    is.countP (·.link?.isSome) := by
  rw [linkCount, filterMap_getElem?_range]

theorem linkCount_filter_le (is : List (Instruction α)) (ks : List Nat) (keep : Nat → Bool) :
    linkCount is (ks.filter keep) ≤ linkCount is ks :=
  (List.filter_sublist.filterMap _).countP_le

theorem linkCount_filter_lt {ks : List Nat} (keep : Nat → Bool) {k : Nat} {i : Instruction α} (hk : k ∈ ks)
    (hdrop : ¬ keep k) (hi : is[k]? = some i) (hlink : i.link?.isSome) :
    linkCount is (ks.filter keep) < linkCount is ks := by
  rw [linkCount, linkCount, List.countP_filterMap, List.countP_filterMap, List.countP_eq_length_filter,
    List.countP_eq_length_filter, List.filter_comm]
  refine List.length_filter_lt_length_iff_exists.mpr ⟨k, List.mem_filter.mpr ⟨hk, ?_⟩, hdrop⟩
  rw [hi, Option.map_some, Option.getD_some, hlink]

/-- At a front with nothing due there are only gates on two qubits. -/
theorem exists_link_of_due_eq_nil (hdue : (ofInstructions m n is).due s front = []) {k : Nat} (hk : k ∈ front)
    (hlt : k < is.length) : ∃ i, is[k]? = some i ∧ i.link?.isSome := by
  have hi := List.getElem?_eq_getElem hlt
  have hblocked : s.blocked? m is[k] ≠ none := fun hfree =>
    List.ne_nil_of_mem (mem_due.mpr ⟨hk, _, hi, hfree⟩) hdue
  obtain ⟨e, he⟩ := Option.ne_none_iff_exists'.mp hblocked
  obtain ⟨a, b, hl, -⟩ := RouteState.blocked?_eq_some he
  exact ⟨_, hi, by rw [hl, Option.isSome_some]⟩

/-- Once a gate is led along a path, something at the front is due. -/
theorem reaches_and_due_of_lead (h : Reaches m n is s order waiting) (hlt : ∀ i ∈ is, ∀ q ∈ i.qubits, q < n)
    (hnd : ∀ i ∈ is, i.qubits.Nodup) (hfirst : ((Dependencies.ofInstructions is).pick front).head? = some first)
    (hlead : (ofInstructions m n is).lead s first = .ok t) :
    Reaches m n is t order waiting ∧ (ofInstructions m n is).due t front ≠ [] := by
  have hzero : (ofInstructions m n is).unblock front first 0 #[] s = .ok t := hlead
  exact h.unblock hlt hnd (List.mem_of_head? hfirst) hzero

theorem swapCount_swaps (s : RouteState α) (es : List (Nat × Nat)) :
    (s.swaps es).swapCount = s.swapCount + es.length := by
  induction es generalizing s with
  | nil => rfl
  | cons e es ih =>
    refine (ih (s.swap e.1 e.2)).trans ?_
    rw [s.swapCount_swap, List.length_cons]
    omega

theorem length_pathSwaps_le (path : List Nat) : (RouteState.pathSwaps path).length ≤ path.length := by
  fun_induction RouteState.pathSwaps path with
  | case1 a b c rest ih => simpa using ih
  | case2 => exact Nat.zero_le _

/-- A walk visits no qubit twice, so it takes no more swaps than there are qubits. -/
theorem swapCount_lead_le (h : (ofInstructions m n is).lead s first = .ok t) :
    t.swapCount ≤ s.swapCount + m.numQubits := by
  rw [lead] at h
  split at h
  next a b _ =>
    rw [RouteState.walk] at h
    split at h
    next path hpath =>
      cases h
      rw [s.swapAlong_eq, swapCount_swaps]
      have hshort := (isWalk_of_shortestPath? hpath).length_le
      exact Nat.add_le_add_left ((length_pathSwaps_le path).trans hshort) _
    next => cases h
  next =>
    cases h
    exact Nat.le_add_right _ _

/-- How many swaps a gate on two qubits pays for. -/
def swapsPerLink (n : Nat) : Nat := 10 * max n 1 + n

/-- The invariant of the loop: the gates on two qubits released so far have paid for all swaps but those used since the
last release, and these bring gates on two qubits to the front. -/
structure Paid (m : CouplingMap) (n : Nat) (is : List (Instruction α)) (used : Nat) (l : RouteLoop α) : Prop where
  reaches : ∃ order, Reaches m n is l.state order l.waiting
  tries_le : l.tries ≤ 10 * max n 1
  used_le : used ≤ swapsPerLink n
  swapCount_le : l.state.swapCount + linkCount is l.waiting * swapsPerLink n ≤
    is.countP (·.link?.isSome) * swapsPerLink n + used
  links : 0 < used → (Dependencies.ofInstructions is).front l.waiting ≠ [] ∧
    ∀ k ∈ (Dependencies.ofInstructions is).front l.waiting, ∃ i, is[k]? = some i ∧ i.link?.isSome
  used_le_tries : (ofInstructions m n is).due l.state ((Dependencies.ofInstructions is).front l.waiting) = [] →
    used ≤ l.tries

theorem paid_start (m : CouplingMap) (n : Nat) (is : List (Instruction α)) :
    Paid m n is 0 (ofInstructions m n is).loopStart where
  reaches := ⟨[], .start⟩
  tries_le := Nat.zero_le _
  used_le := Nat.zero_le _
  swapCount_le := by
    change 0 + linkCount is (List.range is.length) * swapsPerLink n ≤ _
    rw [linkCount_range]
    omega
  links := nofun
  used_le_tries _ := Nat.zero_le _

namespace Paid

variable {used : Nat}

theorem lt_of_mem_front (h : Paid m n is used l) {k : Nat}
    (hk : k ∈ (Dependencies.ofInstructions is).front l.waiting) : k < is.length := by
  obtain ⟨order, hreaches⟩ := h.reaches
  exact hreaches.lt_of_mem_waiting (List.mem_of_mem_filter hk)

theorem front_eq_nil (h : Paid m n is used l)
    (hnone : ((Dependencies.ofInstructions is).pick ((Dependencies.ofInstructions is).front l.waiting)).head? = none) :
    (Dependencies.ofInstructions is).front l.waiting = [] := by
  refine List.eq_nil_iff_forall_not_mem.mpr fun k hk => ?_
  have hi := List.getElem?_eq_getElem (h.lt_of_mem_front hk)
  exact List.ne_nil_of_mem (mem_pick.mpr ⟨k, hk, hi⟩) (List.head?_eq_none_iff.mp hnone)

/-- What is released pays for the swaps in front of it. -/
theorem release (h : Paid m n is used l)
    (hdue : (ofInstructions m n is).due l.state ((Dependencies.ofInstructions is).front l.waiting) = due)
    (hne : due ≠ []) : Paid m n is 0 ⟨((Dependencies.ofInstructions is).pick due).foldl .emit l.state,
      l.waiting.filter fun k => !due.contains k, 0, decay⟩ where
  reaches := by
    obtain ⟨order, hreaches⟩ := h.reaches
    exact ⟨_, hreaches.emitDue hdue⟩
  tries_le := Nat.zero_le _
  used_le := Nat.zero_le _
  swapCount_le := by
    have hbefore := h.swapCount_le
    dsimp only
    rw [RouteState.swapCount_emitAll]
    rcases Nat.eq_zero_or_pos used with rfl | hpos
    · have hfewer := Nat.mul_le_mul_right (swapsPerLink n)
        (linkCount_filter_le is l.waiting fun k => !due.contains k)
      omega
    · obtain ⟨k, hk⟩ := List.exists_mem_of_ne_nil _ hne
      have hfront : k ∈ (Dependencies.ofInstructions is).front l.waiting := List.mem_of_mem_filter (hdue ▸ hk)
      obtain ⟨i, hi, hlink⟩ := (h.links hpos).2 k hfront
      have hdrop : ¬ (!due.contains k) = true := by simpa using hk
      have hless := linkCount_filter_lt (fun k => !due.contains k) (List.mem_of_mem_filter hfront) hdrop hi hlink
      have hfewer := Nat.mul_le_mul_right (swapsPerLink n) (Nat.succ_le_of_lt hless)
      have hused := h.used_le
      rw [Nat.succ_mul] at hfewer
      omega
  links := nofun
  used_le_tries _ := Nat.zero_le _

/-- What is swapped at a blocked front is left for its gates to pay for. -/
theorem stall (h : Paid m n is used l)
    (hdue : (ofInstructions m n is).due l.state ((Dependencies.ofInstructions is).front l.waiting) = [])
    (hfirst : ((Dependencies.ofInstructions is).pick ((Dependencies.ofInstructions is).front l.waiting)).head? =
      some first)
    (hreaches : Reaches m n is t order l.waiting) {more : Nat} (hcount : t.swapCount ≤ l.state.swapCount + more)
    (hused : used + more ≤ swapsPerLink n) (htries : tries ≤ 10 * max n 1)
    (hstill : (ofInstructions m n is).due t ((Dependencies.ofInstructions is).front l.waiting) = [] →
      used + more ≤ tries) : Paid m n is (used + more) ⟨t, l.waiting, tries, decay⟩ where
  reaches := ⟨order, hreaches⟩
  tries_le := htries
  used_le := hused
  swapCount_le := by
    have hbefore := h.swapCount_le
    dsimp only
    omega
  links _ := by
    refine ⟨fun hnil => ?_, fun k hk => exists_link_of_due_eq_nil hdue hk (h.lt_of_mem_front hk)⟩
    rw [hnil] at hfirst
    cases hfirst
  used_le_tries := hstill

/-- Whatever a turn does, the gates on two qubits pay for it. -/
theorem turn (h : Paid m n is used l) (hlt : ∀ i ∈ is, ∀ q ∈ i.qubits, q < n) (hnd : ∀ i ∈ is, i.qubits.Nodup)
    (hm : m.numQubits ≤ n) (hturn : (ofInstructions m n is).turn l = .ok (some (event, l'))) :
    ∃ used', Paid m n is used' l' := by
  obtain ⟨order, hreaches⟩ := h.reaches
  rcases turn_cases hturn rfl with
    ⟨-, hne, rfl⟩ | ⟨hdue, first, hfirst, ⟨-, htries, e, decay, he, rfl⟩ | ⟨-, s, hs, rfl⟩⟩
  · exact ⟨0, h.release rfl hne⟩
  · have hused := h.used_le_tries hdue
    have htries : l.tries < 10 * max n 1 := htries
    refine ⟨used + 1, h.stall hdue hfirst (hreaches.swap (isLinked_of_bestSwap he)) ?_ ?_ htries ?_⟩
    · exact (l.state.swapCount_swap e.1 e.2).le
    · exact (Nat.succ_le_succ hused).trans (Nat.le_add_right_of_le htries)
    · exact fun _ => Nat.succ_le_succ hused
  · have hused := h.used_le_tries hdue
    obtain ⟨hreached, hstill⟩ := reaches_and_due_of_lead hreaches hlt hnd hfirst hs
    refine ⟨used + n, h.stall hdue hfirst hreached ?_ ?_ (Nat.zero_le _) fun hnone => absurd hnone hstill⟩
    · exact (swapCount_lead_le hs).trans (Nat.add_le_add_left hm _)
    · exact Nat.add_le_add_right (hused.trans h.tries_le) n

end Paid

namespace Ends

variable {used : Nat} (hlt : ∀ i ∈ is, ∀ q ∈ i.qubits, q < n) (hnd : ∀ i ∈ is, i.qubits.Nodup)
  (hm : m.numQubits ≤ n)
include hlt hnd hm

/-- Over a whole run, the gates on two qubits pay for all swaps. -/
theorem swapCount_le (h : (ofInstructions m n is).Ends l events result) (hl : Paid m n is used l)
    (hok : result = .ok s) : s.swapCount ≤ is.countP (·.link?.isSome) * swapsPerLink n := by
  induction h generalizing used with
  | stop hturn =>
    cases hok
    have hfront := hl.front_eq_nil (turn_eq_none hturn).2
    have hnone : used = 0 := Nat.eq_zero_of_not_pos fun hpos => (hl.links hpos).1 hfront
    have hbefore := hl.swapCount_le
    omega
  | fault _ => cases hok
  | next hturn _ ih =>
    obtain ⟨used', hnext⟩ := hl.turn hlt hnd hm hturn
    exact ih hnext hok

theorem exists_of_append {before rest : List RouteEvent} (h : (ofInstructions m n is).Ends l (before ++ rest) result)
    (hl : Paid m n is used l) : ∃ used' l', Paid m n is used' l' ∧ (ofInstructions m n is).Ends l' rest result := by
  induction before generalizing l used with
  | nil => exact ⟨used, l, hl, h⟩
  | cons event before ih =>
    cases h with
    | next hturn h =>
      obtain ⟨used', hnext⟩ := hl.turn hlt hnd hm hturn
      exact ih h hnext

/-- Between releases the loop inserts so many swaps at most, and then leads at most one gate along a path. -/
theorem pace {mid after : List RouteEvent} (h : (ofInstructions m n is).Ends l (mid ++ after) result)
    (hl : Paid m n is used l) (hmid : .released ∉ mid) :
    (∃ k w, k + l.tries ≤ 10 * max n 1 ∧ w ≤ 1 ∧ mid = .replicate k .swapped ++ .replicate w .walked) ∧
    ((ofInstructions m n is).due l.state ((Dependencies.ofInstructions is).front l.waiting) ≠ [] → mid = []) := by
  induction mid generalizing l used with
  | nil => exact ⟨⟨0, 0, (Nat.zero_add _).trans_le hl.tries_le, Nat.zero_le _, rfl⟩, fun _ => rfl⟩
  | cons event mid ih =>
    have hevent := List.ne_of_not_mem_cons hmid
    have hrest := List.not_mem_of_not_mem_cons hmid
    cases h with
    | next hturn h =>
      obtain ⟨used', hnext⟩ := hl.turn hlt hnd hm hturn
      rcases turn_cases hturn rfl with
        ⟨rfl, -⟩ | ⟨hdue, first, hfirst, ⟨rfl, htries, e, decay, -, rfl⟩ | ⟨rfl, s, hs, rfl⟩⟩
      · exact absurd rfl hevent
      · obtain ⟨⟨k, w, hk, hw, rfl⟩, -⟩ := ih h hnext hrest
        exact ⟨⟨k + 1, w, by dsimp only at hk; omega, hw, rfl⟩, fun hne => absurd hdue hne⟩
      · obtain ⟨order, hreaches⟩ := hl.reaches
        obtain ⟨-, hstill⟩ := reaches_and_due_of_lead hreaches hlt hnd hfirst hs
        obtain rfl := (ih h hnext hrest).2 hstill
        exact ⟨⟨0, 1, (Nat.zero_add _).trans_le hl.tries_le, Nat.le_refl _, rfl⟩, fun hne => absurd hdue hne⟩

end Ends

end Circuit

end RouteProblem

/-- Routing with lookahead always ends, with success or with a fault, and inserts a bounded number of swaps: between two
releases at most `10 * max N 1` by score and then those of one walk, so on success no more than `10 * max N 1 + N` for
each gate on two qubits, where `N` is the number of qubits of the circuit on the device. -/
theorem lookaheadRouting_ends {c : Circuit Float} (hc : c.WellFormed) (m : CouplingMap) :
    ∃ events result,
      (RouteProblem.ofInstructions m (c.widen m).numQubits c.instructions).Ends
        (RouteProblem.ofInstructions m (c.widen m).numQubits c.instructions).loopStart events result ∧
      (Pass.lookaheadRouting (some m)).run c = .ofRoute (c.widen m) result ∧
      (∀ before mid after, events = before ++ mid ++ after → .released ∉ mid →
        ∃ k ≤ 10 * max (c.widen m).numQubits 1, ∃ w ≤ 1, mid = .replicate k .swapped ++ .replicate w .walked) ∧
      ∀ s, result = .ok s → s.swapCount ≤ c.instructions.countP (·.link?.isSome) *
        (10 * max (c.widen m).numQubits 1 + (c.widen m).numQubits) := by
  have hlt := hc.qubits_lt_widen m
  have hm : m.numQubits ≤ (c.widen m).numQubits := Nat.le_max_right _ _
  have hstart := RouteProblem.paid_start m (c.widen m).numQubits c.instructions
  obtain ⟨events, hends⟩ := RouteProblem.ends_run (m := m) (n := (c.widen m).numQubits) .start hlt hc.qubits_nodup
    (.inl (by rw [List.length_range]; exact Nat.lt_succ_self _)) (.inl ⟨rfl, rfl⟩)
  refine ⟨events, _, hends, rfl, ?_, fun s hs => hends.swapCount_le hlt hc.qubits_nodup hm hstart hs⟩
  rintro before mid after rfl hmid
  rw [List.append_assoc] at hends
  obtain ⟨used, l, hl, hends⟩ := hends.exists_of_append hlt hc.qubits_nodup hm hstart
  obtain ⟨⟨k, w, hk, hw, hevents⟩, -⟩ := hends.pace hlt hc.qubits_nodup hm hl hmid
  exact ⟨k, Nat.le_of_add_right_le hk, w, hw, hevents⟩

theorem lookaheadRouting_ends_ghz : (Circuit.ghz 3 : Circuit Float).WellFormed ∧
    ∃ events result,
      (RouteProblem.ofInstructions (.star 3) 3 (Circuit.ghz 3 : Circuit Float).instructions).Ends
        (RouteProblem.ofInstructions (.star 3) 3 (Circuit.ghz 3).instructions).loopStart events result ∧
      (Pass.lookaheadRouting (some (.star 3))).run (.ghz 3) = .ofRoute ((Circuit.ghz 3).widen (.star 3)) result ∧
      (∀ before mid after, events = before ++ mid ++ after → .released ∉ mid →
        ∃ k ≤ 30, ∃ w ≤ 1, mid = .replicate k .swapped ++ .replicate w .walked) ∧
      ∀ s, result = .ok s → s.swapCount ≤ 2 * 33 :=
  ⟨Circuit.wellFormed_ghz 3, lookaheadRouting_ends (Circuit.wellFormed_ghz 3) (.star 3)⟩

end CircuitStages
