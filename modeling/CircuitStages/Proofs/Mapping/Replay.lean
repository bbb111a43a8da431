import CircuitStages.Mapping.Routing
import CircuitStages.Proofs.Circuit.Layout
import CircuitStages.Proofs.Device.Trails
import Mathlib.Algebra.Group.End

namespace CircuitStages

variable {α : Type}

/-- Where each wire is after some steps, told from where it is before them. -/
def wiresAfter : Equiv.Perm Nat → List (RouteStep α) → Equiv.Perm Nat
  | w, [] => w
  | w, .inserted a b :: rest => wiresAfter (Equiv.swap a b * w) rest
  | w, .routed _ :: rest => wiresAfter w rest

/-- The instructions that are not inserted, on the wires at their positions. -/
def readBack : Equiv.Perm Nat → List (RouteStep α) → List (Instruction α)
  | _, [] => []
  | w, .inserted a b :: rest => readBack (Equiv.swap a b * w) rest
  | w, .routed i :: rest => i.onQubits (i.qubits.map w.symm) :: readBack w rest

theorem wiresAfter_append (w : Equiv.Perm Nat) (xs ys : List (RouteStep α)) :
    wiresAfter w (xs ++ ys) = wiresAfter (wiresAfter w xs) ys := by
  induction xs generalizing w with
  | nil => rfl
  | cons x xs ih => cases x <;> exact ih _

theorem readBack_append (w : Equiv.Perm Nat) (xs ys : List (RouteStep α)) :
    readBack w (xs ++ ys) = readBack w xs ++ readBack (wiresAfter w xs) ys := by
  induction xs generalizing w with
  | nil => rfl
  | cons x xs ih =>
    cases x with
    | inserted a b => exact ih _
    | routed i => exact congrArg (List.cons _) (ih w)

theorem Instruction.onQubits_map_symm (i : Instruction α) (w : Equiv.Perm Nat) :
    (i.onQubits (i.qubits.map w)).onQubits ((i.onQubits (i.qubits.map w)).qubits.map w.symm) = i := by
  simp [Instruction.onQubits]

theorem Instruction.lt_of_link? {i : Instruction α} {n a b : Nat} (hl : i.link? = some (a, b))
    (hlt : ∀ q ∈ i.qubits, q < n) : a < n ∧ b < n := by
  have hqs := (Instruction.link?_eq_some_iff.mp hl).1
  exact ⟨hlt a (by simp [hqs]), hlt b (by simp [hqs])⟩

theorem Instruction.ne_of_link? {i : Instruction α} {a b : Nat} (hl : i.link? = some (a, b)) (hnd : i.qubits.Nodup) :
    a ≠ b := by
  have hqs := (Instruction.link?_eq_some_iff.mp hl).1
  simpa [hqs] using hnd

namespace RouteState

/-- Where each wire is after the steps taken, by replay. -/
def placed (s : RouteState α) : Equiv.Perm Nat := wiresAfter 1 s.steps.reverse

/-- The instructions emitted so far, read back on wires. -/
def emitted (s : RouteState α) : List (Instruction α) := readBack 1 s.steps.reverse

theorem placed_swap (s : RouteState α) (a b : Nat) : (s.swap a b).placed = Equiv.swap a b * s.placed := by
  simp only [placed, swap, List.reverse_cons, wiresAfter_append]
  rfl

theorem placed_emit (s : RouteState α) (i : Instruction α) : (s.emit i).placed = s.placed := by
  simp only [placed, emit, List.reverse_cons, wiresAfter_append]
  rfl

theorem emitted_swap (s : RouteState α) (a b : Nat) : (s.swap a b).emitted = s.emitted := by
  simp [emitted, swap, readBack_append, readBack]

/-- The layout of a routing state has every wire below `n` where replay has it. -/
def Tracks (n : Nat) (s : RouteState α) : Prop := ∀ v < n, s.wires.physical? v = some (s.placed v)

variable {n : Nat} {s : RouteState α}

theorem tracks_start (n : Nat) : Tracks n (.start n : RouteState α) :=
  fun _ hv => Layout.physical?_trivial hv

theorem Tracks.swap (h : Tracks n s) (a b : Nat) : Tracks n (s.swap a b) := by
  intro v hv
  rw [placed_swap]
  change (s.wires.swap a b).physical? v = _
  rw [Layout.physical?_swap, h v hv]
  rfl

theorem Tracks.emit (h : Tracks n s) (i : Instruction α) : Tracks n (s.emit i) := by
  intro v hv
  rw [placed_emit]
  exact h v hv

theorem Tracks.position_eq (h : Tracks n s) {v : Nat} (hv : v < n) : s.position v = s.placed v := by
  rw [position, h v hv, Option.getD_some]

theorem Tracks.position_swap (h : Tracks n s) (a b : Nat) {v : Nat} (hv : v < n) :
    (s.swap a b).position v = Equiv.swap a b (s.position v) := by
  rw [(h.swap a b).position_eq hv, placed_swap, h.position_eq hv]
  rfl

theorem Tracks.position_ne (h : Tracks n s) {v w : Nat} (hv : v < n) (hw : w < n) (hne : v ≠ w) :
    s.position v ≠ s.position w := by
  rw [h.position_eq hv, h.position_eq hw]
  exact s.placed.injective.ne hne

/-- The operands of a gate are never at the same position. -/
theorem Tracks.ne_of_link? (h : Tracks n s) {i : Instruction α} {a b : Nat} (hl : i.link? = some (a, b))
    (hlt : ∀ q ∈ i.qubits, q < n) (hnd : i.qubits.Nodup) : s.position a ≠ s.position b := by
  obtain ⟨ha, hb⟩ := i.lt_of_link? hl hlt
  exact h.position_ne ha hb (i.ne_of_link? hl hnd)

theorem Tracks.emitted_emit (h : Tracks n s) (i : Instruction α) (hi : ∀ q ∈ i.qubits, q < n) :
    (s.emit i).emitted = s.emitted ++ [i] := by
  have hmap : i.qubits.map s.position = i.qubits.map s.placed :=
    List.map_congr_left fun q hq => h.position_eq (hi q hq)
  simp only [emitted, RouteState.emit, List.reverse_cons, readBack_append, hmap]
  exact congrArg (readBack 1 s.steps.reverse ++ [·]) (i.onQubits_map_symm s.placed)

/-- Inserts swaps in turn. -/
def swaps (s : RouteState α) (es : List (Nat × Nat)) : RouteState α := es.foldl (fun s e => s.swap e.1 e.2) s

theorem steps_swaps (s : RouteState α) (es : List (Nat × Nat)) :
    (s.swaps es).steps.reverse = s.steps.reverse ++ es.map fun e => .inserted e.1 e.2 := by
  induction es generalizing s with
  | nil => simp [swaps]
  | cons e es ih =>
    change ((s.swap e.1 e.2).swaps es).steps.reverse = _
    rw [ih, swap, List.reverse_cons, List.append_assoc]
    rfl

theorem emitted_swaps (s : RouteState α) (es : List (Nat × Nat)) : (s.swaps es).emitted = s.emitted := by
  induction es generalizing s with
  | nil => rfl
  | cons e es ih => exact (ih (s.swap e.1 e.2)).trans (s.emitted_swap e.1 e.2)

theorem Tracks.swaps (h : Tracks n s) (es : List (Nat × Nat)) : Tracks n (s.swaps es) := by
  induction es generalizing s with
  | nil => exact h
  | cons e es ih => exact ih (h.swap e.1 e.2)

/-- The swaps along a path up to the neighbour of its last qubit. -/
def pathSwaps : List Nat → List (Nat × Nat)
  | a :: b :: c :: rest => (a, b) :: pathSwaps (b :: c :: rest)
  | _ => []

theorem swapAlong_eq (s : RouteState α) (path : List Nat) : s.swapAlong path = s.swaps (pathSwaps path) := by
  fun_induction pathSwaps path generalizing s with
  | case1 a b c rest ih => exact ih (s.swap a b)
  | case2 path short =>
    match path, short with
    | [], _ => rfl
    | [_], _ => rfl
    | [_, _], _ => rfl
    | a :: b :: c :: rest, short => exact absurd rfl (short a b c rest)

theorem isLinked_pathSwaps {m : CouplingMap} {path : List Nat} (h : path.IsChain fun p q => m.isLinked p q) :
    ∀ e ∈ pathSwaps path, m.isLinked e.1 e.2 := by
  fun_induction pathSwaps path with
  | case1 a b c rest ih =>
    obtain ⟨hab, hrest⟩ := List.isChain_cons_cons.mp h
    intro e he
    rcases List.mem_cons.mp he with rfl | he
    · exact hab
    · exact ih hrest e he
  | case2 => simp

/-- A wire that is led along a path ends up next to a wire that waits at the end of it. -/
theorem Tracks.isLinked_swapAlong {m : CouplingMap} {a b v w : Nat} {path : List Nat} (h : Tracks n s)
    (hv : v < n) (hw : w < n) (hpath : IsWalk m a b path) (hlong : 2 ≤ path.length) (ha : s.position v = a)
    (hb : s.position w = b) : m.isLinked ((s.swapAlong path).position v) ((s.swapAlong path).position w) := by
  induction path generalizing s a with
  | nil => simp at hlong
  | cons p path ih =>
    have hp : p = a := by simpa using hpath.first
    match path with
    | [] => simp at hlong
    | [q] =>
      have hq : q = b := by simpa using hpath.last
      have link := (List.isChain_cons_cons.mp hpath.linked).1
      change m.isLinked (s.position v) (s.position w)
      rw [ha, hb, ← hp, ← hq]
      exact link
    | q :: r :: rest =>
      obtain ⟨-, hlinked⟩ := List.isChain_cons_cons.mp hpath.linked
      obtain ⟨hpnew, hnodup⟩ := List.nodup_cons.mp hpath.nodup
      have htail : IsWalk m q b (q :: r :: rest) :=
        ⟨rfl, by simpa using hpath.last, hlinked, hnodup, fun x hx => hpath.inRange x (List.mem_cons_of_mem _ hx)⟩
      have hend : b ∈ r :: rest := List.mem_of_getLast? (by simpa using hpath.last)
      -- The end of the path is on neither side of its first swap, so only the wire at the start moves.
      have hbp : b ≠ p := fun he => hpnew (List.mem_cons_of_mem _ (he ▸ hend))
      have hbq : b ≠ q := fun he => (List.nodup_cons.mp hnodup).1 (he ▸ hend)
      refine ih (h.swap p q) htail (by simp) ?_ ?_
      · rw [h.position_swap p q hv, ha, ← hp, Equiv.swap_apply_left]
      · rw [h.position_swap p q hw, hb, Equiv.swap_apply_of_ne_of_ne hbp hbq]

theorem blocked?_eq_none_iff {m : CouplingMap} {i : Instruction α} :
    s.blocked? m i = none ↔ ∀ a b, i.link? = some (a, b) → m.isLinked (s.position a) (s.position b) := by
  cases hi : i.link? with
  | none => simp [blocked?, hi]
  | some e =>
    simp only [blocked?, hi, ite_eq_left_iff, reduceCtorEq, imp_false, Decidable.not_not, Option.some.injEq]
    constructor
    · rintro h a b rfl
      exact h
    · intro h
      exact h e.1 e.2 rfl

theorem blocked?_eq_some {m : CouplingMap} {i : Instruction α} {p q : Nat} (h : s.blocked? m i = some (p, q)) :
    ∃ a b, i.link? = some (a, b) ∧ s.position a = p ∧ s.position b = q := by
  cases hi : i.link? with
  | none => simp [blocked?, hi] at h
  | some e =>
    simp only [blocked?, hi] at h
    split at h
    · cases h
    · cases h
      exact ⟨e.1, e.2, rfl, rfl, rfl⟩

/-- A walk is a run of swaps between linked positions. -/
theorem exists_swaps_of_walk {m : CouplingMap} {name : String} {p q : Nat} {t : RouteState α}
    (h : s.walk m name p q = .ok t) : ∃ es, t = s.swaps es ∧ ∀ e ∈ es, m.isLinked e.1 e.2 := by
  rw [walk] at h
  split at h
  next path hpath =>
    cases h
    exact ⟨pathSwaps path, s.swapAlong_eq path, isLinked_pathSwaps (isWalk_of_shortestPath? hpath).linked⟩
  next => cases h

/-- After a walk for a blocked gate, the gate is blocked no more. -/
theorem Tracks.blocked?_walk {m : CouplingMap} {i : Instruction α} {p q : Nat} {t : RouteState α} (ht : Tracks n s)
    (hlt : ∀ v ∈ i.qubits, v < n) (hnd : i.qubits.Nodup) (hb : s.blocked? m i = some (p, q))
    (h : s.walk m i.name p q = .ok t) : t.blocked? m i = none := by
  obtain ⟨a, b, hi, ha, hb⟩ := blocked?_eq_some hb
  obtain ⟨hav, hbv⟩ := i.lt_of_link? hi hlt
  rw [walk] at h
  split at h
  next path hpath =>
    cases h
    have walk := isWalk_of_shortestPath? hpath
    have hpq : p ≠ q := ha ▸ hb ▸ ht.ne_of_link? hi hlt hnd
    have hlong : 2 ≤ path.length := by
      match path, walk with
      | [], w => simpa using w.first
      | [x], w => exact absurd ((Option.some.inj w.first).symm.trans (Option.some.inj w.last)) hpq
      | x :: y :: rest, _ => simp
    refine blocked?_eq_none_iff.mpr fun a' b' hi' => ?_
    cases hi.symm.trans hi'
    exact ht.isLinked_swapAlong hav hbv walk hlong ha hb
  next => cases h

/-- All gates on two qubits that have been put out, inserted swaps included, are on linked positions. -/
def Adjacent (m : CouplingMap) (s : RouteState α) : Prop :=
  ∀ st ∈ s.steps, ∀ a b, st.toInstruction.link? = some (a, b) → m.isLinked a b

theorem adjacent_start (m : CouplingMap) (n : Nat) : Adjacent m (.start n : RouteState α) := by
  simp [Adjacent, start]

theorem Adjacent.swap {m : CouplingMap} (h : Adjacent m s) {a b : Nat} (hab : m.isLinked a b) :
    Adjacent m (s.swap a b) := by
  intro st hst x y hxy
  rcases List.mem_cons.mp hst with rfl | hst
  · obtain ⟨hqs, -⟩ := Instruction.link?_eq_some_iff.mp hxy
    cases hqs
    exact hab
  · exact h st hst x y hxy

theorem Adjacent.swaps {m : CouplingMap} (h : Adjacent m s) {es : List (Nat × Nat)}
    (hes : ∀ e ∈ es, m.isLinked e.1 e.2) : Adjacent m (s.swaps es) := by
  induction es generalizing s with
  | nil => exact h
  | cons e es ih => exact ih (h.swap (hes e List.mem_cons_self)) fun f hf => hes f (List.mem_cons_of_mem _ hf)

theorem Adjacent.emit {m : CouplingMap} (h : Adjacent m s) {i : Instruction α} (hi : s.blocked? m i = none) :
    Adjacent m (s.emit i) := by
  intro st hst x y hxy
  rcases List.mem_cons.mp hst with rfl | hst
  · obtain ⟨hqs, hgate⟩ := Instruction.link?_eq_some_iff.mp hxy
    change i.qubits.map s.position = [x, y] at hqs
    obtain ⟨a, b, hab⟩ : ∃ a b, i.qubits = [a, b] := List.length_eq_two.mp (by simpa using congrArg List.length hqs)
    have hi' : i.link? = some (a, b) := Instruction.link?_eq_some_iff.mpr ⟨hab, hgate⟩
    rw [hab] at hqs
    cases hqs
    exact blocked?_eq_none_iff.mp hi a b hi'
  · exact h st hst x y hxy

end RouteState

namespace Circuit

variable {c : Circuit α} {m : CouplingMap}

theorem WellFormed.qubits_lt_widen (hc : c.WellFormed) (m : CouplingMap) :
    ∀ i ∈ c.instructions, ∀ q ∈ i.qubits, q < (c.widen m).numQubits :=
  fun i hi q hq => (hc.qubits_lt i hi q hq).trans_le (Nat.le_max_left _ _)

theorem WellFormed.initialLayout_lt (hc : c.WellFormed) {e : Nat × Nat} (he : e ∈ (c.widen m).initialLayout.pairs) :
    e.2 < (c.widen m).numQubits := by
  cases hl : c.layout with
  | none =>
    simp only [initialLayout, widen, hl, Option.getD_none, Layout.trivial, List.mem_map, List.mem_range] at he ⊢
    obtain ⟨q, hq, rfl⟩ := he
    exact hq
  | some l =>
    simp only [initialLayout, widen, hl, Option.getD_some] at he ⊢
    exact (hc.layout_lt l (by simp [hl]) e he).2.trans_le (Nat.le_max_left _ _)

/-- The final placement is the initial one followed by the way of each wire. -/
theorem WellFormed.physical?_finishRoute (hc : c.WellFormed) {s : RouteState α}
    (hs : s.Tracks (c.widen m).numQubits) :
    ∃ l, ((c.widen m).finishRoute s).finalLayout = some l ∧
      ∀ v, l.physical? v = ((c.widen m).initialLayout.physical? v).map s.placed := by
  have hmap : ∀ e ∈ (c.widen m).initialLayout.pairs, (e.1, s.position e.2) = (e.1, s.placed e.2) :=
    fun e he => congrArg (Prod.mk e.1) (hs.position_eq (hc.initialLayout_lt he))
  refine ⟨_, rfl, fun v => ?_⟩
  rw [List.map_congr_left hmap]
  exact Layout.physical?_ofPairs_map _ _ (fun _ _ _ _ h => s.placed.injective h) v

end Circuit

end CircuitStages
