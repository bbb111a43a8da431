import CircuitStages.Proofs.Ascending
import CircuitStages.Proofs.Mapping.Dependencies
import CircuitStages.Proofs.Tables.Basic

namespace CircuitStages

variable {α : Type} {k n numQubits numClbits : Nat} {is : List (Instruction α)}

/-- Makes an instruction the last user of some operands, in turn, and returns who was the last user before. -/
def visit? (k : Nat) : Array (Option Nat) → List Nat → Option (List Nat × Array (Option Nat))
  | last, [] => some ([], last)
  | last, b :: bs => do
    let before ← last[b]?
    let last ← modify? last b fun _ => some k
    let (users, last) ← visit? k last bs
    pure (before.toList ++ users, last)

structure DependencyTables where
  lastQubits : Array (Option Nat)
  lastClbits : Array (Option Nat)
  /-- The instructions that wait for each one. -/
  after : Array (List Nat)
  /-- How many each one waits for. -/
  pending : Array Nat

namespace DependencyTables

def start (numQubits numClbits n : Nat) : DependencyTables :=
  ⟨Array.replicate numQubits none, Array.replicate numClbits none, Array.replicate n [], Array.replicate n 0⟩

/-- Enters an instruction with its number. -/
def enter? (t : DependencyTables) (e : Instruction α × Nat) : Option DependencyTables := do
  let (qubitUsers, lastQubits) ← visit? e.2 t.lastQubits e.1.qubits
  let (clbitUsers, lastClbits) ← visit? e.2 t.lastClbits e.1.clbits
  let users := ascendingNats (qubitUsers ++ clbitUsers)
  let after ← modifyAll? t.after users (· ++ [e.2])
  let pending ← modify? t.pending e.2 (· + users.length)
  pure ⟨lastQubits, lastClbits, after, pending⟩

end DependencyTables

def dependencyTables? (numQubits numClbits : Nat) (is : List (Instruction α)) : Option DependencyTables :=
  is.zipIdx.foldlM DependencyTables.enter? (.start numQubits numClbits is.length)

/-- The numbers of the instructions that one waits for. -/
def before (is : List (Instruction α)) (k : Nat) : List Nat := (Dependencies.ofInstructions is).before.getD k []

/-- The numbers of the instructions that wait for one, among the first `n`. -/
def afterBelow (is : List (Instruction α)) (n p : Nat) : List Nat :=
  (List.range n).filter fun k => (before is k).contains p

theorem exists_visit? {last : Array (Option Nat)} {f : Nat → Option Nat} {bs : List Nat} (h : Holds last n f)
    (hlt : ∀ b ∈ bs, b < n) :
    ∃ users last', visit? k last bs = some (users, last') ∧
      Holds last' n (fun b => if b ∈ bs then some k else f b) ∧
      ∀ x, x ∈ users ↔ (∃ b ∈ bs, f b = some x) ∨ (¬ bs.Nodup ∧ x = k) := by
  induction bs generalizing last f with
  | nil => exact ⟨[], last, rfl, by simpa using h, by simp⟩
  | cons b bs ih =>
    obtain ⟨hb, hrest⟩ := List.forall_mem_cons.mp hlt
    obtain ⟨first, hfirst, hholds⟩ := h.modify? hb fun _ => some k
    obtain ⟨users, last', hvisit, hlast, husers⟩ := ih hholds hrest
    refine ⟨(f b).toList ++ users, last', ?_, hlast.congr fun c _ => ?_, fun x => ?_⟩
    · rw [visit?, h.getElem?_eq b hb]
      simp only [Option.bind_eq_bind, Option.bind_some]
      rw [hfirst]
      simp only [Option.bind_some]
      rw [hvisit]
      rfl
    · by_cases hcb : c = b
      · simp [hcb]
      · simp [hcb]
    · rw [List.mem_append, husers, Option.mem_toList]
      constructor
      · rintro (hx | ⟨c, hc, hx⟩ | ⟨hdup, hx⟩)
        · exact .inl ⟨b, List.mem_cons_self, hx⟩
        · by_cases hcb : c = b
          · subst hcb
            rw [Function.update_self] at hx
            exact .inr ⟨fun hnd => (List.nodup_cons.mp hnd).1 hc, (Option.some.inj hx).symm⟩
          · rw [Function.update_of_ne hcb] at hx
            exact .inl ⟨c, List.mem_cons_of_mem _ hc, hx⟩
        · exact .inr ⟨fun hnd => hdup (List.nodup_cons.mp hnd).2, hx⟩
      · rintro (⟨c, hc, hx⟩ | ⟨hdup, hx⟩)
        · by_cases hcb : c = b
          · exact .inl (hcb ▸ hx)
          · refine .inr (.inl ⟨c, List.mem_of_ne_of_mem hcb hc, ?_⟩)
            rwa [Function.update_of_ne hcb]
        · by_cases hb : b ∈ bs
          · exact .inr (.inl ⟨b, hb, by rw [Function.update_self, hx]⟩)
          · exact .inr (.inr ⟨fun hnd => hdup (List.nodup_cons.mpr ⟨hb, hnd⟩), hx⟩)

/-- The last user of an operand among some numbered instructions. -/
def lastUser? (uses : Instruction α → Bool) (earlier : List (Nat × Instruction α)) : Option Nat :=
  (earlier.find? fun e => uses e.2).map (·.1)

theorem numbered_take_succ {i : Instruction α} (hi : is[k]? = some i) :
    numbered (is.take (k + 1)) = (k, i) :: numbered (is.take k) := by
  have hk : k ≤ is.length := (List.getElem?_eq_some_iff.mp hi).1.le
  rw [List.take_add_one, hi, Option.toList_some, numbered_concat, List.length_take_of_le hk]

theorem lastUser?_cons {uses : Instruction α → Bool} {i : Instruction α} {earlier : List (Nat × Instruction α)} :
    lastUser? uses ((k, i) :: earlier) = if uses i then some k else lastUser? uses earlier := by
  rw [lastUser?, List.find?_cons]
  cases uses i <;> rfl

/-- What the tables hold once the first instructions have been entered. -/
structure DependencyTables.Holds (t : DependencyTables) (numQubits numClbits : Nat) (is : List (Instruction α))
    (entered : Nat) : Prop where
  lastQubits : CircuitStages.Holds t.lastQubits numQubits fun q =>
    lastUser? (·.qubits.contains q) (numbered (is.take entered))
  lastClbits : CircuitStages.Holds t.lastClbits numClbits fun b =>
    lastUser? (·.clbits.contains b) (numbered (is.take entered))
  after : CircuitStages.Holds t.after is.length (afterBelow is entered)
  pending : CircuitStages.Holds t.pending is.length fun k =>
    if k < entered then (ascendingNats (before is k)).length else 0

theorem holds_start (numQubits numClbits : Nat) (is : List (Instruction α)) :
    (DependencyTables.start numQubits numClbits is.length).Holds numQubits numClbits is 0 := by
  refine ⟨holds_replicate _ _, holds_replicate _ _, holds_replicate _ _, ?_⟩
  refine (holds_replicate is.length 0).congr fun k _ => ?_
  rw [if_neg (Nat.not_lt_zero k)]

/-- The last users of operands are what an instruction waits for, with itself if it lists a classical bit twice. -/
theorem mem_before_iff {i : Instruction α} (hi : is[k]? = some i) {p : Nat} :
    p ∈ before is k ↔ (∃ q ∈ i.qubits, lastUser? (·.qubits.contains q) (numbered (is.take k)) = some p) ∨
      (∃ b ∈ i.clbits, lastUser? (·.clbits.contains b) (numbered (is.take k)) = some p) ∨
      (¬ i.clbits.Nodup ∧ p = k) := by
  refine (waitsFor_iff hi).trans (mem_predecessors.trans ?_)
  simp only [lastUser?, Option.map_eq_some_iff]

theorem DependencyTables.Holds.enter? {t : DependencyTables} {i : Instruction α}
    (h : t.Holds numQubits numClbits is k) (hi : is[k]? = some i) (hq : ∀ q ∈ i.qubits, q < numQubits)
    (hb : ∀ b ∈ i.clbits, b < numClbits) (hnd : i.qubits.Nodup) :
    ∃ t', t.enter? (i, k) = some t' ∧ t'.Holds numQubits numClbits is (k + 1) := by
  obtain ⟨qubitUsers, lastQubits, hqvisit, hqholds, hqusers⟩ := exists_visit? (k := k) h.lastQubits hq
  obtain ⟨clbitUsers, lastClbits, hbvisit, hbholds, hbusers⟩ := exists_visit? (k := k) h.lastClbits hb
  have hk : k < is.length := (List.getElem?_eq_some_iff.mp hi).1
  have husers : ascendingNats (qubitUsers ++ clbitUsers) = ascendingNats (before is k) := by
    refine ascendingNats_congr fun p => ?_
    rw [List.mem_append, hqusers, hbusers, mem_before_iff hi]
    simp [hnd]
  have hlt : ∀ p ∈ ascendingNats (before is k), p < is.length := by
    intro p hp
    rcases lt_of_waitsFor hi (mem_ascendingNats.mp hp) with hpk | ⟨rfl, -⟩
    · exact hpk.trans hk
    · exact hk
  have hnodup : (ascendingNats (before is k)).Nodup := nodup_ascendingNats _
  obtain ⟨after, hafter, haholds⟩ := h.after.modifyAll? hlt hnodup (· ++ [k])
  obtain ⟨pending, hpending, hpholds⟩ := h.pending.modify? hk (· + (ascendingNats (before is k)).length)
  refine ⟨⟨lastQubits, lastClbits, after, pending⟩, ?_, ?_, ?_, ?_, ?_⟩
  · rw [DependencyTables.enter?, hqvisit]
    simp only [Option.bind_eq_bind, Option.bind_some]
    rw [hbvisit]
    simp only [Option.bind_some, husers]
    rw [hafter]
    simp only [Option.bind_some]
    rw [hpending]
    rfl
  · refine hqholds.congr fun q _ => ?_
    rw [numbered_take_succ hi, lastUser?_cons]
    simp
  · refine hbholds.congr fun b _ => ?_
    rw [numbered_take_succ hi, lastUser?_cons]
    simp
  · refine haholds.congr fun p _ => ?_
    rw [afterBelow, afterBelow, List.range_succ, List.filter_append]
    by_cases hp : p ∈ before is k
    · simp [mem_ascendingNats, hp]
    · simp [mem_ascendingNats, hp]
  · refine hpholds.congr fun j _ => ?_
    rcases Nat.lt_trichotomy j k with hjk | rfl | hkj
    · rw [Function.update_of_ne hjk.ne, if_pos hjk, if_pos (Nat.lt_succ_of_lt hjk)]
    · rw [Function.update_self, if_neg (Nat.lt_irrefl j), if_pos (Nat.lt_succ_self j), Nat.zero_add]
    · rw [Function.update_of_ne hkj.ne', if_neg hkj.le.not_gt, if_neg (Nat.not_lt.mpr hkj)]

/-- The tables of a circuit hold what waits for each instruction, and how many it waits for. -/
theorem exists_dependencyTables? (hq : ∀ i ∈ is, ∀ q ∈ i.qubits, q < numQubits)
    (hb : ∀ i ∈ is, ∀ b ∈ i.clbits, b < numClbits) (hnd : ∀ i ∈ is, i.qubits.Nodup) :
    ∃ t, dependencyTables? numQubits numClbits is = some t ∧ Holds t.after is.length (afterBelow is is.length) ∧
      Holds t.pending is.length fun k => (ascendingNats (before is k)).length := by
  have walk (rest : List (Instruction α)) (k : Nat) (t : DependencyTables) (hrest : is.drop k = rest)
      (ht : t.Holds numQubits numClbits is k) :
      ∃ t', (rest.zipIdx k).foldlM DependencyTables.enter? t = some t' ∧
        t'.Holds numQubits numClbits is (k + rest.length) := by
    induction rest generalizing k t with
    | nil => exact ⟨t, rfl, ht⟩
    | cons i rest ih =>
      have hi : is[k]? = some i := by rw [← List.head?_drop, hrest]; rfl
      have hmem := List.mem_of_getElem? hi
      have hdrop : is.drop (k + 1) = rest := by rw [← List.tail_drop, hrest]; rfl
      obtain ⟨t', hstep, ht'⟩ := ht.enter? hi (hq i hmem) (hb i hmem) (hnd i hmem)
      obtain ⟨t'', hfold, hlast⟩ := ih (k + 1) t' hdrop ht'
      refine ⟨t'', ?_, ?_⟩
      · rw [List.zipIdx_cons, List.foldlM_cons, hstep]
        exact hfold
      · rwa [List.length_cons, Nat.add_comm rest.length 1, ← Nat.add_assoc]
  obtain ⟨t, hfold, ht⟩ := walk is 0 _ rfl (holds_start numQubits numClbits is)
  rw [Nat.zero_add] at ht
  exact ⟨t, hfold, ht.after, ht.pending.congr fun k hk => if_pos hk⟩

theorem eq_of_modifyAll? {β : Type} {table changed : Array β} {places : List Nat} {f : β → β}
    (h : modifyAll? table places f = some changed) :
    places.foldl (fun table k => table.modify k f) table = changed := by
  induction places generalizing table with
  | nil => exact Option.some.inj h
  | cons k places ih =>
    rw [modifyAll?, List.foldlM_cons, Option.bind_eq_bind, Option.bind_eq_some_iff] at h
    obtain ⟨first, hfirst, hrest⟩ := h
    rw [List.foldl_cons]
    rw [modify?] at hfirst
    split at hfirst
    · cases hfirst
      exact ih hrest
    · cases hfirst

/-- Lists of successors, filled from the last row to the first one. -/
theorem holds_successors {rows : List (List Nat × Nat)} (hlt : ∀ e ∈ rows, ∀ p ∈ e.1, p < n) :
    Holds (rows.foldr (fun e after => e.1.eraseDups.foldl (fun after p => after.modify p (e.2 :: ·)) after)
      (Array.replicate n [])) n fun p => (rows.filter (·.1.contains p)).map (·.2) := by
  induction rows with
  | nil => exact holds_replicate n []
  | cons e rows ih =>
    obtain ⟨he, hrest⟩ := List.forall_mem_cons.mp hlt
    have hplaces : ∀ p ∈ e.1.eraseDups, p < n := fun p hp => he p (List.mem_eraseDups.mp hp)
    obtain ⟨changed, hchanged, hholds⟩ := (ih hrest).modifyAll? hplaces (nodup_eraseDups e.1) (e.2 :: ·)
    rw [List.foldr_cons, eq_of_modifyAll? hchanged]
    refine hholds.congr fun p _ => ?_
    by_cases hp : p ∈ e.1
    · simp [List.mem_eraseDups, hp]
    · simp [List.mem_eraseDups, hp]

theorem length_predecessorsFrom (earlier : List (Nat × Instruction α)) (is : List (Instruction α)) :
    (predecessorsFrom earlier is).length = is.length := by
  induction is generalizing earlier with
  | nil => rfl
  | cons i is ih => rw [predecessorsFrom, List.length_cons, ih, List.length_cons]

theorem lt_length_of_mem_before {p : Nat} (hp : p ∈ before is k) : p < is.length := by
  rcases Nat.lt_or_ge k is.length with hk | hk
  · rcases lt_of_waitsFor (List.getElem?_eq_getElem hk) hp with hpk | ⟨rfl, -⟩
    · exact hpk.trans hk
    · exact hk
  · have hsize : (Dependencies.ofInstructions is).before.size ≤ k := by
      change (predecessorsFrom [] is).length ≤ k
      rwa [length_predecessorsFrom]
    rw [before, Array.getD_eq_getD_getElem?, Array.getElem?_eq_none hsize] at hp
    cases hp

theorem holds_after (is : List (Instruction α)) :
    Holds (Dependencies.ofInstructions is).after is.length (afterBelow is is.length) := by
  have hrows : (predecessorsFrom [] is).zipIdx = (List.range is.length).map fun k => (before is k, k) := by
    refine List.ext_getElem (by simp [length_predecessorsFrom]) fun k hk _ => ?_
    have hk : k < (predecessorsFrom [] is).length := by simpa using hk
    have hbefore : before is k = (predecessorsFrom [] is)[k] := by
      change (predecessorsFrom [] is).toArray.getD k [] = _
      rw [Array.getD_eq_getD_getElem?, List.getElem?_toArray, List.getElem?_eq_getElem hk]
      rfl
    simp [hbefore]
  have hlt : ∀ e ∈ (predecessorsFrom [] is).zipIdx, ∀ p ∈ e.1, p < is.length := by
    rw [hrows]
    exact List.forall_mem_map.mpr fun k _ p hp => lt_length_of_mem_before hp
  have hholds := holds_successors hlt
  rw [← List.foldl_reverse] at hholds
  change Holds ((predecessorsFrom [] is).zipIdx.reverse.foldl _
    (Array.replicate (predecessorsFrom [] is).length [])) _ _
  rw [length_predecessorsFrom]
  refine hholds.congr fun p _ => ?_
  rw [hrows, List.filter_map, List.map_map, afterBelow]
  simp [Function.comp_def]

end CircuitStages
