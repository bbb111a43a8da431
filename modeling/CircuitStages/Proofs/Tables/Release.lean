import CircuitStages.Proofs.Mapping.Lookahead
import CircuitStages.Proofs.Tables.Dependencies

namespace CircuitStages

variable {α : Type} {n : Nat} {is : List (Instruction α)} {waiting due : List Nat}

/-- An instruction waits for one less, and joins the front if nothing is left. A count of zero is a fault, since it can
not go down. -/
def countDown? (counts : Array Nat × List Nat) (k : Nat) : Option (Array Nat × List Nat) := do
  match ← counts.1[k]? with
  | 0 => none
  | left + 1 =>
    let pending ← modify? counts.1 k fun _ => left
    pure (pending, if left = 0 then counts.2 ++ [k] else counts.2)

/-- Whether a table holds some counts, and a list what has been counted down to zero, each once. -/
structure Counted (n : Nat) (f : Nat → Nat) (counts : Array Nat × List Nat) : Prop where
  holds : Holds counts.1 n f
  nodup : counts.2.Nodup
  eq_zero : ∀ k ∈ counts.2, f k = 0

namespace Counted

variable {f : Nat → Nat} {counts : Array Nat × List Nat} {k : Nat} {ks : List Nat}

theorem not_mem (h : Counted n f counts) (hpos : 0 < f k) : k ∉ counts.2 := by
  intro hin
  have hzero := h.eq_zero k hin
  omega

theorem countDown? (h : Counted n f counts) (hk : k < n) (hpos : 0 < f k) :
    ∃ next, countDown? counts k = some next ∧ Counted n (Function.update f k (f k - 1)) next ∧
      ∀ j, j ∈ next.2 ↔ j ∈ counts.2 ∨ (j = k ∧ f k = 1) := by
  obtain ⟨left, hleft⟩ := Nat.exists_eq_succ_of_ne_zero hpos.ne'
  obtain ⟨first, hfirst, hholds⟩ := h.holds.modify? hk fun _ => left
  have hnew := h.not_mem hpos
  have hstep : CircuitStages.countDown? counts k = some (first, if left = 0 then counts.2 ++ [k] else counts.2) := by
    simp only [CircuitStages.countDown?, h.holds.getElem?_eq k hk, hleft, Option.bind_eq_bind, Option.bind_some, hfirst]
    rfl
  have hmem (j : Nat) :
      j ∈ (if left = 0 then counts.2 ++ [k] else counts.2) ↔ j ∈ counts.2 ∨ (j = k ∧ f k = 1) := by
    split
    next hzero => simp [hleft, hzero]
    next hzero => simp [hleft, hzero]
  have hvalue : f k - 1 = left := by omega
  refine ⟨_, hstep, ⟨hvalue ▸ hholds, ?_, fun j hj => ?_⟩, hmem⟩
  · dsimp only
    split
    · simpa using h.nodup.concat hnew
    · exact h.nodup
  · rcases (hmem j).mp hj with hold | ⟨rfl, hone⟩
    · have hne : j ≠ k := fun heq => hnew (heq ▸ hold)
      rw [Function.update_of_ne hne, h.eq_zero j hold]
    · rw [Function.update_self, hone]

/-- Counts can be taken down together if each one is large enough. -/
theorem foldlM_countDown? (h : Counted n f counts) (hlt : ∀ k ∈ ks, k < n) (hcount : ∀ k, ks.count k ≤ f k) :
    ∃ next, ks.foldlM CircuitStages.countDown? counts = some next ∧ Counted n (fun k => f k - ks.count k) next ∧
      ∀ k, k ∈ next.2 ↔ k ∈ counts.2 ∨ (k ∈ ks ∧ f k = ks.count k) := by
  induction ks generalizing counts f with
  | nil => exact ⟨counts, rfl, h, by simp⟩
  | cons k ks ih =>
    obtain ⟨hk, hrest⟩ := List.forall_mem_cons.mp hlt
    have hself : ks.count k + 1 ≤ f k := by simpa using hcount k
    have hother {j : Nat} (hj : j ≠ k) : (k :: ks).count j = ks.count j := List.count_cons_of_ne hj.symm
    obtain ⟨first, hfirst, hcounted, hjoined⟩ := h.countDown? hk (Nat.zero_lt_of_lt hself)
    have hcount' (j : Nat) : ks.count j ≤ Function.update f k (f k - 1) j := by
      by_cases hj : j = k
      · rw [hj, Function.update_self]
        omega
      · rw [Function.update_of_ne hj, ← hother hj]
        exact hcount j
    obtain ⟨next, hfold, hlast, hmem⟩ := ih hcounted hrest hcount'
    have hsame : (fun j => Function.update f k (f k - 1) j - ks.count j) = fun j => f j - (k :: ks).count j := by
      funext j
      by_cases hj : j = k
      · rw [hj, Function.update_self, List.count_cons_self]
        omega
      · rw [Function.update_of_ne hj, hother hj]
    refine ⟨next, by rw [List.foldlM_cons, hfirst]; exact hfold, hsame ▸ hlast, fun j => ?_⟩
    rw [hmem, hjoined]
    by_cases hj : j = k
    · -- The count of `k` gets to zero now, or later on.
      subst hj
      have hnew := h.not_mem (Nat.zero_lt_of_lt hself)
      rw [Function.update_self, List.count_cons_self, ← List.count_pos_iff (l := ks)]
      simp only [hnew, List.mem_cons_self, true_and, false_or]
      omega
    · rw [Function.update_of_ne hj, hother hj, List.mem_cons]
      simp only [hj, false_and, or_false, false_or]

end Counted

/-- How many of the waiting instructions one waits for. -/
def waitCount (is : List (Instruction α)) (waiting : List Nat) (k : Nat) : Nat :=
  (ascendingNats (before is k)).countP waiting.contains

theorem waitCount_eq_zero_iff {k : Nat} : waitCount is waiting k = 0 ↔ ∀ p ∈ before is k, p ∉ waiting := by
  simp [waitCount, mem_ascendingNats]

/-- What goes out is waited for no more. -/
theorem waitCount_eq_add (hdue : ∀ k ∈ due, k ∈ waiting) (k : Nat) :
    waitCount is waiting k = waitCount is (waiting.filter fun j => !due.contains j) k + waitCount is due k := by
  simp only [waitCount]
  induction ascendingNats (before is k) with
  | nil => rfl
  | cons p ps ih =>
    have hp := hdue p
    simp only [List.countP_cons, ih]
    by_cases hpdue : p ∈ due
    · simp [hpdue, hp hpdue, Nat.add_assoc]
    · simp [hpdue]
      omega

/-- What goes out counts down each instruction as often as it is waited for there. -/
theorem count_flatMap_afterBelow (hnd : due.Nodup) {k : Nat} (hk : k < n) :
    (due.flatMap (afterBelow is n)).count k = waitCount is due k := by
  have hcount : (due.flatMap (afterBelow is n)).count k = due.countP (before is k).contains := by
    clear hnd
    induction due with
    | nil => rfl
    | cons p due ih =>
      have hone : (afterBelow is n p).count k = if (before is k).contains p then 1 else 0 := by
        have hnodup : (afterBelow is n p).Nodup := List.nodup_range.filter _
        rw [hnodup.count]
        simp [afterBelow, hk]
      rw [List.flatMap_cons, List.count_append, ih, hone, List.countP_cons, Nat.add_comm]
  rw [hcount, waitCount, List.countP_eq_length_filter, List.countP_eq_length_filter]
  refine ((List.perm_ext_iff_of_nodup (hnd.filter _) ((nodup_ascendingNats _).filter _)).mpr fun p => ?_).length_eq
  simp [mem_ascendingNats, and_comm]

/-- Routing in progress, with the counts of what still waits. -/
structure Progress (α : Type) where
  state : RouteState α
  pending : Array Nat
  front : List Nat

/-- Whether the counts and the front are those of the waiting instructions. -/
structure Progress.Waits (p : Progress α) (is : List (Instruction α)) (waiting : List Nat) : Prop where
  ascending : waiting.Pairwise (· < ·)
  pending : Holds p.pending is.length (waitCount is waiting)
  front : p.front = (Dependencies.ofInstructions is).front waiting

/-- Puts out an instruction and counts down what waits for it. -/
def Progress.emit? (d : Dependencies α) (p : Progress α) (k : Nat) : Option (Progress α) := do
  let i ← d.instructions[k]?
  let after ← d.after[k]?
  let (pending, front) ← after.foldlM countDown? (p.pending, p.front)
  pure ⟨p.state.emit i, pending, front⟩

namespace RouteProblem

/-- The instructions at the front that can be emitted. -/
def dueOnTable? (r : RouteProblem α) (s : RouteState α) (front : List Nat) : Option (List Nat) := do
  let is ← readAll? r.dependencies.instructions front
  pure (((front.zip is).filter fun e => (s.blocked? r.map e.2).isNone).map (·.1))

/-- Emits all that is due, round by round. Running out of rounds is a fault. -/
def releaseOnTables? (r : RouteProblem α) : Nat → Progress α → Option (Progress α)
  | 0, _ => none
  | fuel + 1, p => do
    let due ← r.dueOnTable? p.state p.front
    if due.isEmpty then pure p
    else
      let rest := p.front.filter fun k => !due.contains k
      let next ← due.foldlM (Progress.emit? r.dependencies) { p with front := rest }
      r.releaseOnTables? fuel { next with front := next.front.mergeSort (· ≤ ·) }

end RouteProblem

theorem getElem?_instructions {k : Nat} (hk : k < is.length) :
    (Dependencies.ofInstructions is).instructions[k]? = some is[k] := by
  change is.toArray[k]? = _
  rw [List.getElem?_toArray, List.getElem?_eq_getElem hk]

theorem pick_cons {k : Nat} (hk : k < is.length) (ks : List Nat) :
    (Dependencies.ofInstructions is).pick (k :: ks) = is[k] :: (Dependencies.ofInstructions is).pick ks :=
  List.filterMap_cons_some (getElem?_instructions hk)

theorem readAll?_instructions {ks : List Nat} (hlt : ∀ k ∈ ks, k < is.length) :
    readAll? (Dependencies.ofInstructions is).instructions ks = some ((Dependencies.ofInstructions is).pick ks) := by
  induction ks with
  | nil => rfl
  | cons k ks ih =>
    obtain ⟨hk, hrest⟩ := List.forall_mem_cons.mp hlt
    have hread : ks.mapM ((Dependencies.ofInstructions is).instructions[·]?) =
        some ((Dependencies.ofInstructions is).pick ks) := ih hrest
    rw [readAll?, List.mapM_cons, getElem?_instructions hk, hread, pick_cons hk]
    rfl

namespace RouteProblem

variable {m : CouplingMap} {q : Nat}

theorem dueOnTable?_eq (s : RouteState α) {front : List Nat} (hlt : ∀ k ∈ front, k < is.length) :
    (ofInstructions m n is).dueOnTable? s front = some ((ofInstructions m n is).due s front) := by
  have hread : readAll? (ofInstructions m n is).dependencies.instructions front =
      some ((Dependencies.ofInstructions is).pick front) := readAll?_instructions hlt
  rw [dueOnTable?, hread]
  refine congrArg some ?_
  clear hread
  induction front with
  | nil => rfl
  | cons k front ih =>
    obtain ⟨hk, hrest⟩ := List.forall_mem_cons.mp hlt
    have hget : (ofInstructions m n is).dependencies.instructions[k]? = some is[k] := getElem?_instructions hk
    have hrest := ih hrest
    rw [due] at hrest ⊢
    rw [pick_cons hk, List.zip_cons_cons, List.filter_cons, List.filter_cons, hget, Option.any_some]
    split
    · rw [List.map_cons, hrest]
    · exact hrest

end RouteProblem

/-- Instructions go out one after the other, and what waits for them is counted down in the same order. -/
theorem foldlM_emit? {p : Progress α} {ks front : List Nat} {pending : Array Nat} (hlt : ∀ k ∈ ks, k < is.length)
    (h : (ks.flatMap (afterBelow is is.length)).foldlM countDown? (p.pending, p.front) = some (pending, front)) :
    ks.foldlM (Progress.emit? (Dependencies.ofInstructions is)) p =
      some ⟨((Dependencies.ofInstructions is).pick ks).foldl .emit p.state, pending, front⟩ := by
  induction ks generalizing p with
  | nil =>
    cases h
    rfl
  | cons k ks ih =>
    obtain ⟨hk, hrest⟩ := List.forall_mem_cons.mp hlt
    rw [List.flatMap_cons, List.foldlM_append, Option.bind_eq_bind, Option.bind_eq_some_iff] at h
    obtain ⟨⟨pending', front'⟩, hfirst, h⟩ := h
    have hstep : Progress.emit? (Dependencies.ofInstructions is) p k = some ⟨p.state.emit is[k], pending', front'⟩ := by
      rw [Progress.emit?, getElem?_instructions hk, (holds_after is).getElem?_eq k hk]
      simp only [Option.bind_eq_bind, Option.bind_some]
      rw [hfirst]
      rfl
    rw [List.foldlM_cons, hstep, pick_cons hk, List.foldl_cons]
    exact ih (p := ⟨p.state.emit is[k], pending', front'⟩) hrest h

/-- What does not wait waits for nothing that does. -/
theorem Reaches.not_mem_waiting {m : CouplingMap} {s : RouteState α} {order : List Nat}
    (h : Reaches m n is s order waiting) {k p : Nat} (hk : k < is.length) (hout : k ∉ waiting) (hp : p ∈ before is k) :
    p ∉ waiting := by
  have horder : k ∈ order :=
    (List.mem_append.mp (h.perm.mem_iff.mpr (List.mem_range.mpr hk))).resolve_right hout
  obtain ⟨front, back, rfl⟩ := List.append_of_mem horder
  have hin : p ∈ front := h.respects front k back rfl p hp
  have hnd := h.perm.nodup_iff.mpr List.nodup_range
  exact fun hwait => List.disjoint_of_nodup_append hnd (List.mem_append_left _ hin) hwait

/-- What waits for something that goes out still waits, and does not go out itself. -/
theorem Reaches.of_mem_flatMap {m : CouplingMap} {s : RouteState α} {order : List Nat}
    (h : Reaches m n is s order waiting) (hdue : ∀ k ∈ due, k ∈ waiting ∧ waitCount is waiting k = 0) {k : Nat}
    (hin : k ∈ due.flatMap (afterBelow is is.length)) : k < is.length ∧ k ∈ waiting ∧ k ∉ due := by
  obtain ⟨j, hj, hkj⟩ := List.mem_flatMap.mp hin
  obtain ⟨hrange, hcontains⟩ := List.mem_filter.mp hkj
  have hlt : k < is.length := List.mem_range.mp hrange
  have hbefore : j ∈ before is k := List.contains_iff_mem.mp hcontains
  have hwait : j ∈ waiting := (hdue j hj).1
  refine ⟨hlt, ?_, fun hkdue => waitCount_eq_zero_iff.mp (hdue k hkdue).2 j hbefore hwait⟩
  by_contra hout
  exact h.not_mem_waiting hlt hout hbefore hwait

namespace Progress.Waits

variable {m : CouplingMap} {p : Progress α} {order : List Nat}

theorem mem_front (h : p.Waits is waiting) (hlt : ∀ k ∈ waiting, k < is.length) {k : Nat} :
    k ∈ p.front ↔ k ∈ waiting ∧ waitCount is waiting k = 0 := by
  rw [h.front, CircuitStages.mem_front hlt, waitCount_eq_zero_iff]
  rfl

/-- A list of what waits for nothing, in any order, is the front once it is sorted. -/
theorem mergeSort_eq_front {front : List Nat} (hasc : waiting.Pairwise (· < ·)) (hlt : ∀ k ∈ waiting, k < is.length)
    (hnd : front.Nodup) (hmem : ∀ k, k ∈ front ↔ k ∈ waiting ∧ waitCount is waiting k = 0) :
    front.mergeSort (· ≤ ·) = (Dependencies.ofInstructions is).front waiting := by
  have hsorted : (front.mergeSort (· ≤ ·)).Pairwise (· < ·) := by
    have hle : (front.mergeSort (· ≤ ·)).Pairwise (fun a b => decide (a ≤ b)) :=
      List.pairwise_mergeSort (by simpa using fun a b c => Nat.le_trans) (by simpa using Nat.le_total) front
    refine hle.imp₂ (fun a b hab hne => ?_) ((List.mergeSort_perm front _).nodup_iff.mpr hnd)
    exact Nat.lt_of_le_of_ne (of_decide_eq_true hab) hne
  refine eq_of_ascending hsorted (hasc.filter _) fun k => ?_
  rw [List.mem_mergeSort, hmem, CircuitStages.mem_front hlt, waitCount_eq_zero_iff]
  rfl

/-- One round: what goes out leaves counts and a front for what still waits. -/
theorem exists_round (h : p.Waits is waiting) (hreach : Reaches m n is p.state order waiting) (hnd : due.Nodup)
    (hdue : ∀ k ∈ due, k ∈ p.front) :
    ∃ next : Progress α,
      due.foldlM (Progress.emit? (Dependencies.ofInstructions is))
        { p with front := p.front.filter fun k => !due.contains k } = some next ∧
      next.state = ((Dependencies.ofInstructions is).pick due).foldl .emit p.state ∧
      Progress.Waits { next with front := next.front.mergeSort (· ≤ ·) } is
        (waiting.filter fun k => !due.contains k) := by
  have hlt : ∀ k ∈ waiting, k < is.length := fun k hk => hreach.lt_of_mem_waiting hk
  have hfront : ∀ k ∈ due, k ∈ waiting ∧ waitCount is waiting k = 0 := fun k hk => (h.mem_front hlt).mp (hdue k hk)
  have hsplit (k : Nat) : waitCount is waiting k =
      waitCount is (waiting.filter fun j => !due.contains j) k + waitCount is due k :=
    waitCount_eq_add (fun k hk => (hfront k hk).1) k
  have hcount {k : Nat} (hk : k < is.length) :
      (due.flatMap (afterBelow is is.length)).count k = waitCount is due k := count_flatMap_afterBelow hnd hk
  have hbelow : ∀ k ∈ due.flatMap (afterBelow is is.length), k < is.length :=
    fun k hk => (hreach.of_mem_flatMap hfront hk).1
  have hle (k : Nat) : (due.flatMap (afterBelow is is.length)).count k ≤ waitCount is waiting k := by
    rcases Nat.lt_or_ge k is.length with hk | hk
    · rw [hcount hk, hsplit k]
      exact Nat.le_add_left _ _
    · rw [List.count_eq_zero_of_not_mem fun hin => (hbelow k hin).not_ge hk]
      exact Nat.zero_le _
  have hleftnd : (p.front.filter fun k => !due.contains k).Nodup := by
    rw [h.front]
    exact (hreach.nodup_waiting.filter _).filter _
  have hcounted : Counted is.length (waitCount is waiting) (p.pending, p.front.filter fun k => !due.contains k) :=
    ⟨h.pending, hleftnd, fun k hk => ((h.mem_front hlt).mp (List.mem_of_mem_filter hk)).2⟩
  obtain ⟨⟨pending, front⟩, hfold, ⟨hpending, hfnd, -⟩, hmem⟩ := hcounted.foldlM_countDown? hbelow hle
  have hduelt : ∀ k ∈ due, k < is.length := fun k hk => hlt k (hfront k hk).1
  refine ⟨_, foldlM_emit? (p := { p with front := _ }) hduelt hfold, rfl, h.ascending.filter _, ?_, ?_⟩
  · refine hpending.congr fun k hk => ?_
    rw [hcount hk, hsplit k, Nat.add_sub_cancel_right]
  · refine mergeSort_eq_front (h.ascending.filter _) (fun k hk => hlt k (List.mem_of_mem_filter hk)) hfnd fun k => ?_
    rw [hmem, List.mem_filter, List.mem_filter, h.mem_front hlt]
    have hk := hsplit k
    constructor
    · rintro (⟨⟨hwait, hzero⟩, hstays⟩ | ⟨hin, hall⟩)
      · exact ⟨⟨hwait, hstays⟩, by omega⟩
      · obtain ⟨hkn, hwait, hstays⟩ := hreach.of_mem_flatMap hfront hin
        refine ⟨⟨hwait, by simpa using hstays⟩, ?_⟩
        rw [hcount hkn] at hall
        omega
    · rintro ⟨⟨hwait, hstays⟩, hzero⟩
      have hall : waitCount is waiting k = (due.flatMap (afterBelow is is.length)).count k := by
        rw [hcount (hlt k hwait)]
        omega
      by_cases hnone : waitCount is waiting k = 0
      · exact .inl ⟨⟨hwait, hnone⟩, hstays⟩
      · exact .inr ⟨List.count_pos_iff.mp (by omega), hall⟩

/-- The rounds end before the fuel does, with nothing due, and leave what the release without counts leaves. -/
theorem exists_release? (h : p.Waits is waiting) (hreach : Reaches m n is p.state order waiting) {fuel : Nat}
    (rounds : Nat) (hfuel : waiting.length < fuel) (hrounds : waiting.length ≤ rounds) :
    ∃ (next : Progress α) (left : List Nat),
      (RouteProblem.ofInstructions m n is).releaseOnTables? fuel p = some next ∧
      (RouteProblem.ofInstructions m n is).release rounds p.state waiting = (next.state, left) ∧
      next.Waits is left ∧ (RouteProblem.ofInstructions m n is).due next.state next.front = [] := by
  induction fuel generalizing p order waiting rounds with
  | zero => exact absurd hfuel (Nat.not_lt_zero _)
  | succ fuel ih =>
    have hlt : ∀ k ∈ waiting, k < is.length := fun k hk => hreach.lt_of_mem_waiting hk
    have hdep : (RouteProblem.ofInstructions m n is).dependencies = Dependencies.ofInstructions is := rfl
    have hfrontlt : ∀ k ∈ p.front, k < is.length := fun k hk => hlt k ((h.mem_front hlt).mp hk).1
    have hdue := RouteProblem.dueOnTable?_eq (m := m) (n := n) p.state hfrontlt
    rw [RouteProblem.releaseOnTables?, hdue]
    simp only [Option.bind_eq_bind, Option.bind_some]
    by_cases hempty : (RouteProblem.ofInstructions m n is).due p.state p.front = []
    · refine ⟨p, waiting, by rw [hempty]; rfl, ?_, h, hempty⟩
      cases rounds with
      | zero => rfl
      | succ rounds =>
        rw [RouteProblem.release, hdep, ← h.front, hempty]
        rfl
    · obtain ⟨first, hfirst⟩ := List.exists_mem_of_ne_nil _ hempty
      have hmem {k : Nat} (hk : k ∈ (RouteProblem.ofInstructions m n is).due p.state p.front) :
          (k ∈ waiting ∧ waitCount is waiting k = 0) ∧ ∃ i, is[k]? = some i ∧ p.state.blocked? m i = none := by
        obtain ⟨hfront, hfree⟩ := RouteProblem.mem_due.mp hk
        exact ⟨(h.mem_front hlt).mp hfront, hfree⟩
      have hnd : ((RouteProblem.ofInstructions m n is).due p.state p.front).Nodup := by
        rw [h.front]
        exact (hreach.nodup_waiting.filter _).filter _
      obtain ⟨next, hround, hstate, hwaits⟩ := h.exists_round hreach hnd fun k hk => (RouteProblem.mem_due.mp hk).1
      have hnext := hreach.emitAll hnd fun k hk => ⟨(hmem hk).1.1, waitCount_eq_zero_iff.mp (hmem hk).1.2, (hmem hk).2⟩
      rw [← hstate] at hnext
      have hless : (waiting.filter fun k =>
          !((RouteProblem.ofInstructions m n is).due p.state p.front).contains k).length < waiting.length :=
        List.length_filter_lt_length_iff_exists.mpr ⟨first, (hmem hfirst).1.1, by simpa using hfirst⟩
      obtain ⟨rounds, rfl⟩ := Nat.exists_eq_succ_of_ne_zero (n := rounds) (by omega)
      obtain ⟨final, left, hrelease, hmodel, hleft, hdone⟩ := ih hwaits hnext rounds (by omega) (by omega)
      refine ⟨final, left, ?_, ?_, hleft, hdone⟩
      · rw [hdep, hround]
        simpa [hempty] using hrelease
      · rw [RouteProblem.release, hdep, ← h.front, if_neg (by simpa using hempty), ← hstate]
        exact hmodel

end Progress.Waits

end CircuitStages
