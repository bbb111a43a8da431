import CircuitStages.Proofs.Tables.Release
import CircuitStages.Proofs.Tables.Routing

namespace CircuitStages

variable {α : Type} {m : CouplingMap} {n : Nat} {is : List (Instruction α)} {s : RouteState α}

/-- The operands of the gates on two qubits behind the given instructions, nearest first. -/
def Dependencies.linksBehindOnTables? (d : Dependencies α) (limit : Nat) :
    Nat → List Nat → List Nat → List (Nat × Nat) → Option (List (Nat × Nat))
  | 0, _, _, found => some found
  | _, [], _, found => some found
  | fuel + 1, k :: queue, seen, found =>
    if limit ≤ found.length then some found
    else do
      let after ← d.after[k]?
      let fresh := after.filter fun j => !seen.contains j
      let is ← readAll? d.instructions fresh
      d.linksBehindOnTables? limit fuel (queue ++ fresh) (seen ++ fresh) (found ++ is.filterMap (·.link?))

def Dependencies.lookaheadOnTables? (d : Dependencies α) (limit : Nat) (front : List Nat) :
    Option (List (Nat × Nat)) := do
  let found ← d.linksBehindOnTables? limit d.instructions.size front front []
  pure (found.take limit)

/-- The positions of the first two operands. -/
def RouteState.firstTwo? (s : RouteState α) (i : Instruction α) : Option (Nat × Nat) := do
  let positions := i.qubits.map s.position
  let a ← positions[0]?
  let b ← positions[1]?
  pure (a, b)

namespace RouteProblem

/-- The first instruction at the front. -/
def firstAt? (r : RouteProblem α) (front : List Nat) : Option (Instruction α) := do
  let index ← front[0]?
  r.dependencies.instructions[index]?

/-- How well a swap serves the blocked pairs of positions and the pairs behind them. -/
def scoreOnTable? (r : RouteProblem α) (decay : Array Float) (name : String) (blocked behind : List (Nat × Nat))
    (swap : Nat × Nat) : Checked CircuitError Float := do
  let first ← (decay[swap.1]? : Option Float)
  let second ← (decay[swap.2]? : Option Float)
  let near ← Checked.ofExcept (r.meanDistance name swap blocked)
  let far ← Checked.ofExcept (r.meanDistance name swap behind)
  pure ((if first < second then second else first) * (near + lookaheadWeight * far))

/-- The best swap for a blocked front. Without one the first gate is at fault, with its two positions. -/
def bestSwapOnTables? (r : RouteProblem α) (s : RouteState α) (decay : Array Float) (front : List Nat) :
    Checked CircuitError (Nat × Nat) := do
  let atFront ← readAll? r.dependencies.instructions front
  let blocked := atFront.filterMap (s.blocked? r.map)
  let wires ← r.dependencies.lookaheadOnTables? lookaheadSize front
  let behind := wires.map fun e => (s.position e.1, s.position e.2)
  let first ← r.firstAt? front
  let scored ← (r.candidates blocked).mapM fun swap => do
    let value ← r.scoreOnTable? decay first.name blocked behind swap
    pure (swap, value)
  match firstLeast? scored with
  | some swap => pure swap
  | none =>
    let (a, b) ← s.firstTwo? first
    throw (.unroutable first.name a b)

def decayOnTable? (r : RouteProblem α) (s : RouteState α) (decay : Array Float) (a b : Nat) : Option (Array Float) := do
  let decay ← modify? decay a (· + decayRate)
  let decay ← modify? decay b (· + decayRate)
  pure (if s.swapCount % decayPeriod = 0 then Array.replicate r.numQubits 1.0 else decay)

/-- Inserts swaps until something at the blocked front is due, at most `patience` of them by score. -/
def unblockOnTables? (r : RouteProblem α) (front : List Nat) :
    Nat → Array Float → RouteState α → Checked CircuitError (RouteState α)
  | 0, _, s => do
    let first ← r.firstAt? front
    match s.blocked? r.map first with
    | some (a, b) => s.walkOnTables? r.map first.name a b
    | none => pure s
  | patience + 1, decay, s => do
    let (a, b) ← r.bestSwapOnTables? s decay front
    let s := s.swap a b
    let decay ← r.decayOnTable? s decay a b
    let due ← r.dueOnTable? s front
    if due.isEmpty then r.unblockOnTables? front patience decay s else pure s

/-- Releases and unblocks in turn until nothing is at the front. Running out of turns is a fault. -/
def runOnTables? (r : RouteProblem α) : Nat → Progress α → Checked CircuitError (RouteState α)
  | 0, _ => liftM (none : Option (RouteState α))
  | turns + 1, p => do
    let p ← r.releaseOnTables? (r.dependencies.instructions.size + 1) p
    if p.front.isEmpty then pure p.state
    else do
      let state ← r.unblockOnTables? p.front r.patience (Array.replicate r.numQubits 1.0) p.state
      r.runOnTables? turns { p with state := state }

end RouteProblem

def routeLookaheadOnTables? (m : CouplingMap) (numQubits numClbits : Nat) (is : List (Instruction α)) :
    Checked CircuitError (RouteState α) := do
  let tables ← dependencyTables? numQubits numClbits is
  let counts ← readAll? tables.pending (List.range is.length)
  let front := (((List.range is.length).zip counts).filter (·.2 = 0)).map (·.1)
  let r := RouteProblem.ofInstructions m numQubits is
  let r := { r with dependencies := { r.dependencies with after := tables.after } }
  r.runOnTables? (is.length + 1) ⟨.start numQubits, tables.pending, front⟩

theorem linksBehindOnTables?_eq (limit fuel : Nat) {queue : List Nat} (hlt : ∀ k ∈ queue, k < is.length)
    (seen : List Nat) (found : List (Nat × Nat)) :
    (Dependencies.ofInstructions is).linksBehindOnTables? limit fuel queue seen found =
      some ((Dependencies.ofInstructions is).linksBehind limit fuel queue seen found) := by
  induction fuel generalizing queue seen found with
  | zero => rfl
  | succ fuel ih =>
    cases queue with
    | nil => rfl
    | cons k queue =>
      obtain ⟨hk, hrest⟩ := List.forall_mem_cons.mp hlt
      rw [Dependencies.linksBehindOnTables?, Dependencies.linksBehind]
      split
      · rfl
      · have hafter := (holds_after is).getElem?_eq k hk
        have hfresh : ∀ j ∈ (afterBelow is is.length k).filter (fun j => !seen.contains j), j < is.length :=
          fun j hj => List.mem_range.mp (List.mem_of_mem_filter (List.mem_of_mem_filter hj))
        rw [Array.getD_eq_getD_getElem?, hafter]
        simp only [Option.bind_eq_bind, Option.bind_some, Option.getD_some]
        rw [readAll?_instructions hfresh]
        exact ih (List.forall_mem_append.mpr ⟨hrest, hfresh⟩) _ _

namespace RouteProblem

theorem mirrors_scoreOnTable? (r : RouteProblem α) {decay : Array Float} {swap : Nat × Nat}
    (ha : swap.1 < decay.size) (hb : swap.2 < decay.size) (name : String) (blocked behind : List (Nat × Nat)) :
    Mirrors Eq (r.scoreOnTable? decay name blocked behind swap) (r.score decay name blocked behind swap) := by
  have hread {k : Nat} (hk : k < decay.size) : decay[k]? = some (decay.getD k 1.0) := by
    rw [Array.getD_eq_getD_getElem?, Array.getElem?_eq_getElem hk]
    rfl
  rw [scoreOnTable?, score]
  refine .lift (hread ha) (.lift (hread hb) ?_)
  refine (mirrors_ofExcept _).bind fun near near' _ hnear => (mirrors_ofExcept _).bind fun far far' _ hfar => ?_
  rw [hnear, hfar]
  exact .pure rfl

theorem firstTwo?_eq {i : Instruction α} {a b : Nat} (h : s.blocked? m i = some (a, b)) :
    s.firstTwo? i = some (a, b) := by
  obtain ⟨v, w, hl, rfl, rfl⟩ := RouteState.blocked?_eq_some h
  rw [RouteState.firstTwo?, (Instruction.link?_eq_some_iff.mp hl).1]
  rfl

/-- The best swap is found without faults, if all weights are there and the first gate is blocked. -/
theorem mirrors_bestSwapOnTables? {decay : Array Float} {front : List Nat} {first : Instruction α}
    (hlt : ∀ k ∈ front, k < is.length) (hfirst : (ofInstructions m n is).firstAt? front = some first)
    (hblocked : s.blocked? m first ≠ none) (hdecay : decay.size = n) (hm : m.numQubits ≤ n) :
    Mirrors Eq ((ofInstructions m n is).bestSwapOnTables? s decay front)
      ((ofInstructions m n is).bestSwap s decay front first) := by
  obtain ⟨⟨a, b⟩, hab⟩ := Option.ne_none_iff_exists'.mp hblocked
  have hlook : (Dependencies.ofInstructions is).lookaheadOnTables? lookaheadSize front =
      some ((Dependencies.ofInstructions is).lookahead lookaheadSize front) := by
    rw [Dependencies.lookaheadOnTables?, linksBehindOnTables?_eq _ _ hlt]
    rfl
  rw [bestSwapOnTables?, bestSwap]
  refine .lift (readAll?_instructions hlt) (.lift hlook (.lift hfirst ?_))
  refine (mirrors_mapM fun swap hswap => ?_).bind fun scored scored' _ hscored => ?_
  · obtain ⟨ha, hb⟩ := CouplingMap.lt_of_isLinked (isLinked_of_mem_candidates hswap)
    refine (mirrors_scoreOnTable? _ (hdecay ▸ ha.trans_le hm) (hdecay ▸ hb.trans_le hm) _ _ _).bind
      fun value value' _ hvalue => ?_
    rw [hvalue]
    exact .pure rfl
  · rw [hscored]
    cases firstLeast? scored' with
    | some swap => exact .pure rfl
    | none =>
      refine .lift (firstTwo?_eq hab) ?_
      have hgetD : (s.blocked? (ofInstructions m n is).map first).getD (0, 0) = (a, b) := congrArg (·.getD (0, 0)) hab
      simp only [hgetD]
      exact .throw _

theorem decayOnTable?_eq (is : List (Instruction α)) (s : RouteState α) {decay : Array Float} (hdecay : decay.size = n)
    {a b : Nat} (ha : a < n) (hb : b < n) :
    (ofInstructions m n is).decayOnTable? s decay a b = some ((ofInstructions m n is).decayAfter s decay a b) ∧
      ((ofInstructions m n is).decayAfter s decay a b).size = n := by
  have hfirst : (decay.modify a (· + decayRate)).size = n := Array.size_modify.trans hdecay
  constructor
  · rw [decayOnTable?, modify?, if_pos (hdecay ▸ ha)]
    simp only [Option.bind_eq_bind, Option.bind_some]
    rw [modify?, if_pos (hfirst ▸ hb)]
    rfl
  · rw [decayAfter]
    split
    · exact Array.size_replicate
    · exact Array.size_modify.trans hfirst

/-- Unblocking a front with nothing due meets no fault. -/
theorem mirrors_unblockOnTables? {front : List Nat} {first : Instruction α} (hlt : ∀ k ∈ front, k < is.length)
    (hfirst : (ofInstructions m n is).firstAt? front = some first) (hm : m.numQubits ≤ n) {patience : Nat}
    {decay : Array Float} (hdecay : decay.size = n) (hdue : (ofInstructions m n is).due s front = []) :
    Mirrors Eq ((ofInstructions m n is).unblockOnTables? front patience decay s)
      ((ofInstructions m n is).unblock front first patience decay s) := by
  have hmem : ∃ k ∈ front, is[k]? = some first := by
    obtain ⟨k, hk, hi⟩ := Option.bind_eq_some_iff.mp hfirst
    exact ⟨k, List.mem_of_getElem? hk, (List.getElem?_toArray ..).symm.trans hi⟩
  induction patience generalizing s decay with
  | zero =>
    rw [unblockOnTables?, unblock]
    refine .lift hfirst ?_
    cases s.blocked? (ofInstructions m n is).map first with
    | none => exact .pure rfl
    | some e => exact s.mirrors_walkOnTables? first.name e.1 e.2
  | succ patience ih =>
    obtain ⟨k, hk, hi⟩ := hmem
    have hblocked : s.blocked? m first ≠ none := fun hfree =>
      List.ne_nil_of_mem (mem_due.mpr ⟨hk, first, hi, hfree⟩) hdue
    rw [unblockOnTables?, unblock]
    refine (mirrors_bestSwapOnTables? hlt hfirst hblocked hdecay hm).bind fun e e' hbest he => ?_
    subst he
    obtain ⟨ha, hb⟩ := CouplingMap.lt_of_isLinked (isLinked_of_bestSwap hbest)
    obtain ⟨hnext, hsize⟩ := decayOnTable?_eq is (s.swap e.1 e.2) hdecay (ha.trans_le hm) (hb.trans_le hm)
    refine .lift hnext (.lift (dueOnTable?_eq _ hlt) ?_)
    dsimp only
    split
    next hempty => exact ih hsize (List.isEmpty_iff.mp hempty)
    next => exact .pure rfl

/-- The run ends before its turns do, without faults: every turn but the first releases something. -/
theorem mirrors_runOnTables? (hlt : ∀ i ∈ is, ∀ q ∈ i.qubits, q < n) (hnd : ∀ i ∈ is, i.qubits.Nodup)
    (hm : m.numQubits ≤ n) {p : Progress α} {order waiting : List Nat} (hreach : Reaches m n is p.state order waiting)
    (hp : p.Waits is waiting) {turns : Nat}
    (hturns : waiting.length < turns ∨ (waiting.length ≤ turns ∧ (ofInstructions m n is).due p.state p.front ≠ [])) :
    Mirrors Eq ((ofInstructions m n is).runOnTables? turns p) ((ofInstructions m n is).run turns p.state waiting) := by
  induction turns generalizing p order waiting with
  | zero =>
    rcases hturns with hless | ⟨hle, hdue⟩
    · exact absurd hless (Nat.not_lt_zero _)
    · rw [hp.front, List.length_eq_zero_iff.mp (Nat.le_zero.mp hle)] at hdue
      exact absurd rfl hdue
  | succ turns ih =>
    have hlength : waiting.length ≤ is.length := by
      have hsub : waiting ⊆ List.range is.length := fun k hk => List.mem_range.mpr (hreach.lt_of_mem_waiting hk)
      simpa using (hreach.nodup_waiting.subperm hsub).length_le
    obtain ⟨next, left, hrelease, hmodel, hleft, hdone⟩ := hp.exists_release? hreach waiting.length
      (Nat.lt_succ_of_le hlength) (Nat.le_refl _)
    obtain ⟨order', hreleased⟩ := hreach.release waiting.length
    have hle : ((ofInstructions m n is).release waiting.length p.state waiting).2.length ≤ turns := by
      rcases hturns with hless | ⟨hle, hdue⟩
      · exact (length_release_le _ _ _ _).trans (Nat.le_of_lt_succ hless)
      · rw [hp.front] at hdue
        exact Nat.le_of_lt_succ ((length_release_lt _ _ _ hdue).trans_le hle)
    rw [hmodel] at hreleased hle
    have hfrontlt : ∀ k ∈ next.front, k < is.length := fun k hk =>
      hreleased.lt_of_mem_waiting ((hleft.mem_front fun _ hj => hreleased.lt_of_mem_waiting hj).mp hk).1
    rw [runOnTables?, run, hmodel]
    refine .lift hrelease ?_
    have hfront : (ofInstructions m n is).dependencies.front left = next.front := hleft.front.symm
    dsimp only
    rw [hfront]
    cases hcases : next.front with
    | nil => exact .pure rfl
    | cons k rest =>
      have hk : k < is.length := hfrontlt k (hcases ▸ List.mem_cons_self)
      have hfirst : (ofInstructions m n is).firstAt? next.front = some is[k] := by
        rw [hcases]
        exact getElem?_instructions hk
      have hhead : ((ofInstructions m n is).dependencies.pick (k :: rest)).head? = some is[k] := by
        exact congrArg List.head? (pick_cons hk rest)
      rw [hhead, if_neg (by simp), ← hcases]
      refine (mirrors_unblockOnTables? hfrontlt hfirst hm Array.size_replicate hdone).bind fun t u hu htu => ?_
      subst htu
      have hpicked : is[k] ∈ (Dependencies.ofInstructions is).pick next.front := by
        rw [hcases, pick_cons hk]
        exact List.mem_cons_self
      obtain ⟨hreached, hdue⟩ := hreleased.unblock hlt hnd hpicked hu
      exact ih (p := { next with state := t }) hreached ⟨hleft.ascending, hleft.pending, hleft.front⟩ (.inr ⟨hle, hdue⟩)

end RouteProblem

/-- Routing with lookahead meets no fault on instructions inside the circuit, and no count goes below zero. -/
theorem mirrors_routeLookaheadOnTables? {numClbits : Nat} (hlt : ∀ i ∈ is, ∀ q ∈ i.qubits, q < n)
    (hclbits : ∀ i ∈ is, ∀ b ∈ i.clbits, b < numClbits) (hnd : ∀ i ∈ is, i.qubits.Nodup) (hm : m.numQubits ≤ n) :
    Mirrors Eq (routeLookaheadOnTables? m n numClbits is) (routeLookahead m n is) := by
  obtain ⟨tables, htables, hafter, hpending⟩ := exists_dependencyTables? hlt hclbits hnd
  have hread : readAll? tables.pending (List.range is.length) =
      some ((List.range is.length).map fun k => (ascendingNats (before is k)).length) :=
    hpending.readAll?_eq fun k hk => List.mem_range.mp hk
  rw [routeLookaheadOnTables?]
  refine .lift htables (.lift hread ?_)
  have hall (k : Nat) : (ascendingNats (before is k)).length = waitCount is (List.range is.length) k := by
    refine (List.countP_eq_length.mpr fun p hp => ?_).symm
    exact List.contains_iff_mem.mpr (List.mem_range.mpr (lt_length_of_mem_before (mem_ascendingNats.mp hp)))
  have hfront : (((List.range is.length).zip ((List.range is.length).map fun k =>
      (ascendingNats (before is k)).length)).filter (·.2 = 0)).map (·.1) =
        (Dependencies.ofInstructions is).front (List.range is.length) := by
    rw [← List.map_prod_left_eq_zip, List.filter_map, List.map_map]
    refine (List.map_id _).trans ?_
    refine eq_of_ascending (List.pairwise_lt_range.filter _) (List.pairwise_lt_range.filter _) fun k => ?_
    rw [List.mem_filter, mem_front fun _ => List.mem_range.mp]
    simp only [Function.comp_apply, hall, decide_eq_true_eq, waitCount_eq_zero_iff]
    rfl
  have hsame : tables.after = (Dependencies.ofInstructions is).after := hafter.unique (holds_after is)
  dsimp only
  rw [hsame]
  refine RouteProblem.mirrors_runOnTables? hlt hnd hm
    (p := ⟨.start n, tables.pending, _⟩) Reaches.start ⟨List.pairwise_lt_range, ?_, ?_⟩ (.inl (by simp))
  · exact hpending.congr fun k _ => hall k
  · exact hfront

end CircuitStages
