import CircuitStages.Proofs.Rewrite.Peephole
import CircuitStages.Proofs.Tables.Basic

namespace CircuitStages

variable {α : Type} {n : Nat} {i p : Instruction α} {is : List (Instruction α)}
  {join : Instruction α → Instruction α → Joined α}

structure Wired (α : Type) where
  /-- The output, with gaps where gates have been cancelled. -/
  slots : Array (Option (Instruction α))
  /-- For each qubit the places of the instructions on it, last one first. -/
  places : Array (List Nat)

/-- The value that all members of a list have, starting from the first one, which has to be there. -/
def common? (tops : List (Option Nat)) : Option (Option Nat) := do
  let first ← tops[0]?
  pure (first.filter fun k => tops.all (· == some k))

namespace Wired

/-- The place of the instruction that comes last on all of the qubits. -/
def lastOnAll? (w : Wired α) (qubits : List Nat) : Option (Option Nat) := do
  let found ← readAll? w.places qubits
  common? (found.map (·.head?))

/-- Joins a gate with what is at place `k`, if they do not stay apart. -/
def joinAt? (join : Instruction α → Instruction α → Joined α) (w : Wired α) (i : Instruction α) (k : Nat) :
    Option (Option (Wired α)) := do
  match ← w.slots[k]? with
  | none => pure none
  | some p =>
    match if p.isGate && p.width == i.width then join p i else .apart with
    | .apart => pure none
    | .nothing =>
      let places ← modifyAll? w.places i.qubits List.tail
      let slots ← modify? w.slots k fun _ => none
      pure (some ⟨slots, places⟩)
    | .one merged =>
      let slots ← modify? w.slots k fun _ => some merged
      pure (some ⟨slots, w.places⟩)

def append? (w : Wired α) (i : Instruction α) : Option (Wired α) := do
  let places ← modifyAll? w.places i.qubits (w.slots.size :: ·)
  pure ⟨w.slots.push (some i), places⟩

def step? (join : Instruction α → Instruction α → Joined α) (w : Wired α) (i : Instruction α) :
    Option (Wired α) := do
  let previous? ← if isJoinable i then w.lastOnAll? i.qubits else pure none
  match previous? with
  | none => w.append? i
  | some k =>
    match ← w.joinAt? join i k with
    | some joined => pure joined
    | none => w.append? i

end Wired

def peepholeOnTables? (join : Instruction α → Instruction α → Joined α) (numQubits : Nat) (is : List (Instruction α)) :
    Option (List (Instruction α)) := do
  let w ← is.foldlM (Wired.step? join) ⟨#[], Array.replicate numQubits []⟩
  pure (w.slots.toList.filterMap id)

/-- The places of the instructions on a qubit. -/
def placesOn (live : List (Nat × Instruction α)) (q : Nat) : List Nat :=
  (live.filter (·.2.qubits.contains q)).map (·.1)

/-- Whether the tables hold the given instructions, which are listed last one first with their places. -/
structure Wired.Shows (w : Wired α) (n : Nat) (live : List (Nat × Instruction α)) : Prop where
  descending : (live.map (·.1)).Pairwise (· > ·)
  lt_size : ∀ e ∈ live, e.1 < w.slots.size
  slots : Holds w.slots w.slots.size (live.lookup ·)
  places : Holds w.places n (placesOn live)

theorem shows_start (n : Nat) : (⟨#[], Array.replicate n []⟩ : Wired α).Shows n [] :=
  ⟨List.Pairwise.nil, nofun, ⟨rfl, nofun⟩, holds_replicate n []⟩

/-- Entries in descending order of their numbers are found in ascending order of the numbers. -/
theorem filterMap_lookup {live : List (Nat × Instruction α)} {size : Nat} (h : (live.map (·.1)).Pairwise (· > ·))
    (hlt : ∀ e ∈ live, e.1 < size) : (List.range size).filterMap (live.lookup ·) = (live.map (·.2)).reverse := by
  induction size generalizing live with
  | zero =>
    cases live with
    | nil => rfl
    | cons e live => exact absurd (hlt e List.mem_cons_self) (Nat.not_lt_zero _)
  | succ size ih =>
    rw [List.range_succ, List.filterMap_append]
    rcases live with _ | ⟨⟨k, p⟩, live⟩
    · simp
    obtain ⟨hbelow, hrest⟩ := List.pairwise_cons.mp h
    have hbelow : ∀ e ∈ live, e.1 < k := fun e he => hbelow e.1 (List.mem_map_of_mem he)
    have hk : k < size + 1 := hlt (k, p) List.mem_cons_self
    rcases Nat.eq_or_lt_of_le (Nat.le_of_lt_succ hk) with rfl | hk
    · -- The largest number belongs to the first entry, all others come before it.
      have hothers :
          (List.range k).filterMap (((k, p) :: live).lookup ·) = (List.range k).filterMap (live.lookup ·) := by
        refine List.filterMap_congr fun j hj => ?_
        have hne : (j == k) = false := beq_false_of_ne (List.mem_range.mp hj).ne
        rw [List.lookup_cons, hne]
      rw [hothers, ih hrest hbelow]
      simp
    · have hall : ∀ e ∈ (k, p) :: live, e.1 < size := by
        refine List.forall_mem_cons.mpr ⟨hk, fun e he => (hbelow e he).trans hk⟩
      have hnone : ((k, p) :: live).lookup size = none :=
        List.lookup_eq_none_iff.mpr fun e he => bne_iff_ne.mpr (hall e he).ne'
      simp only [ih h hall, List.filterMap_cons, hnone, List.filterMap_nil, List.append_nil]

section PlacesOn

variable {q k : Nat} {front back live : List (Nat × Instruction α)}

theorem placesOn_append : placesOn (front ++ back) q = placesOn front q ++ placesOn back q := by
  simp [placesOn]

theorem placesOn_cons :
    placesOn ((k, p) :: back) q = if q ∈ p.qubits then k :: placesOn back q else placesOn back q := by
  by_cases hq : q ∈ p.qubits
  · simp [placesOn, hq]
  · simp [placesOn, hq]

theorem placesOn_eq_nil (hlive : ∀ e ∈ live, sharesQubit e.2 i = false) (hq : q ∈ i.qubits) : placesOn live q = [] := by
  refine List.map_eq_nil_iff.mpr (List.filter_eq_nil_iff.mpr fun e he hqe => ?_)
  exact sharesQubit_eq_false_iff.mp (hlive e he) (List.contains_iff_mem.mp hqe) hq

end PlacesOn

theorem exists_common? {tops : List (Option Nat)} (hne : tops ≠ []) :
    ∃ last, common? tops = some last ∧ ∀ {k}, last = some k ↔ ∀ top ∈ tops, top = some k := by
  obtain ⟨first, rest, rfl⟩ := List.exists_cons_of_ne_nil hne
  refine ⟨_, rfl, fun {k} => ?_⟩
  rw [Option.filter_eq_some_iff, List.all_eq_true]
  simp

namespace Wired.Shows

variable {w : Wired α} {k : Nat} {live front back : List (Nat × Instruction α)}

theorem toList_slots (h : w.Shows n live) : w.slots.toList.filterMap id = (live.map (·.2)).reverse := by
  rw [h.slots.toList_eq, List.filterMap_map]
  exact filterMap_lookup h.descending h.lt_size

theorem append? (h : w.Shows n live) (hlt : ∀ q ∈ i.qubits, q < n) (hnd : i.qubits.Nodup) :
    ∃ w', w.append? i = some w' ∧ w'.Shows n ((w.slots.size, i) :: live) := by
  obtain ⟨places, hplaces, hholds⟩ := h.places.modifyAll? hlt hnd (w.slots.size :: ·)
  refine ⟨⟨w.slots.push (some i), places⟩, by rw [Wired.append?, hplaces]; rfl, ?_, ?_, ?_, ?_⟩
  · exact List.pairwise_cons.mpr ⟨List.forall_mem_map.mpr h.lt_size, h.descending⟩
  · rw [Array.size_push]
    exact List.forall_mem_cons.mpr ⟨Nat.lt_succ_self _, fun e he => Nat.lt_succ_of_lt (h.lt_size e he)⟩
  · refine ⟨rfl, fun j hj => ?_⟩
    rw [Array.size_push] at hj
    rw [Array.getElem?_push, List.lookup_cons]
    split
    next hlast => rw [hlast, beq_self_eq_true]
    next hne => rw [beq_false_of_ne hne, h.slots.getElem?_eq j (by omega)]
  · exact hholds.congr fun q _ => placesOn_cons.symm

/-- The place of an entry in the middle is that of no other entry. -/
theorem ne_of_mem (h : w.Shows n (front ++ (k, p) :: back)) :
    (∀ e ∈ front, e.1 ≠ k) ∧ ∀ e ∈ back, e.1 ≠ k := by
  have hdescending := h.descending
  rw [List.map_append, List.map_cons] at hdescending
  obtain ⟨-, hback, hfront⟩ := List.pairwise_append.mp hdescending
  refine ⟨fun e he => ?_, fun e he => ?_⟩
  · exact (hfront e.1 (List.mem_map_of_mem he) k List.mem_cons_self).ne'
  · exact ((List.pairwise_cons.mp hback).1 e.1 (List.mem_map_of_mem he)).ne

theorem getElem?_slots (h : w.Shows n (front ++ (k, p) :: back)) : w.slots[k]? = some (some p) := by
  have hnone : front.lookup k = none := List.lookup_eq_none_iff.mpr fun e he => bne_iff_ne.mpr (h.ne_of_mem.1 e he).symm
  rw [h.slots.getElem?_eq k (h.lt_size (k, p) (by simp)), List.lookup_append, hnone]
  simp

/-- Changes the entry at one place; an entry that becomes nothing leaves a gap. -/
theorem modify? (h : w.Shows n (front ++ (k, p) :: back)) (new : Option (Instruction α)) {places : Array (List Nat)}
    (hplaces : Holds places n (placesOn (front ++ new.toList.map (k, ·) ++ back))) :
    ∃ slots, CircuitStages.modify? w.slots k (fun _ => new) = some slots ∧
      Wired.Shows ⟨slots, places⟩ n (front ++ new.toList.map (k, ·) ++ back) := by
  obtain ⟨hkfront, hkback⟩ := h.ne_of_mem
  have hsub : List.Sublist ((front ++ new.toList.map (k, ·) ++ back).map (·.1))
      ((front ++ (k, p) :: back).map (·.1)) := by
    cases new <;> simp
  obtain ⟨slots, hslots, hholds⟩ := h.slots.modify? (h.lt_size (k, p) (by simp)) fun _ => new
  refine ⟨slots, hslots, ?_, ?_, ?_, hplaces⟩
  · exact h.descending.sublist hsub
  · intro e he
    obtain ⟨d, hd, heq⟩ := List.mem_map.mp (hsub.subset (List.mem_map_of_mem he))
    rw [← heq, hholds.size_eq]
    exact h.lt_size d hd
  · rw [hholds.size_eq]
    refine hholds.congr fun j _ => ?_
    by_cases hj : j = k
    · subst hj
      have hf : front.lookup j = none := List.lookup_eq_none_iff.mpr fun e he => bne_iff_ne.mpr (hkfront e he).symm
      have hb : back.lookup j = none := List.lookup_eq_none_iff.mpr fun e he => bne_iff_ne.mpr (hkback e he).symm
      rw [Function.update_self, List.lookup_append, List.lookup_append, hf, hb]
      cases new <;> simp
    · rw [Function.update_of_ne hj]
      have hne : (j == k) = false := beq_false_of_ne hj
      cases new <;> simp [List.lookup_append, List.lookup_cons, hne]

theorem exists_lastOnAll? (h : w.Shows n live) (hlt : ∀ q ∈ i.qubits, q < n) (hne : i.qubits ≠ []) :
    ∃ last, w.lastOnAll? i.qubits = some last ∧
      ∀ {k}, last = some k ↔ ∀ q ∈ i.qubits, (placesOn live q).head? = some k := by
  have htops : (i.qubits.map (placesOn live)).map List.head? ≠ [] := by simpa using hne
  obtain ⟨last, hlast, hcommon⟩ := exists_common? htops
  rw [Wired.lastOnAll?, h.places.readAll?_eq hlt]
  refine ⟨last, hlast, fun {k} => ?_⟩
  rw [hcommon, List.forall_mem_map, List.forall_mem_map]

/-- A gate that shares no qubit with anything has nothing before it on its qubits. -/
theorem lastOnAll?_eq_none (h : w.Shows n live) (hlt : ∀ q ∈ i.qubits, q < n) (hne : i.qubits ≠ [])
    (hlive : ∀ e ∈ live, sharesQubit e.2 i = false) : w.lastOnAll? i.qubits = some none := by
  obtain ⟨last, hlast, hcommon⟩ := h.exists_lastOnAll? hlt hne
  obtain ⟨q, hq⟩ := List.exists_mem_of_ne_nil _ hne
  rw [hlast]
  refine congrArg some (Option.eq_none_iff_forall_ne_some.mpr fun k hk => ?_)
  have htop := hcommon.mp hk q hq
  rw [placesOn_eq_nil hlive hq] at htop
  cases htop

/-- The last instruction that shares a qubit is the last one on all qubits if it has all of them. -/
theorem lastOnAll?_eq (h : w.Shows n (front ++ (k, p) :: back)) (hlt : ∀ q ∈ i.qubits, q < n)
    (hfront : ∀ e ∈ front, sharesQubit e.2 i = false) (hp : sharesQubit p i = true) :
    w.lastOnAll? i.qubits = some (if covers p i then some k else none) := by
  obtain ⟨q, hqp, hqi⟩ : ∃ q ∈ p.qubits, q ∈ i.qubits := by simpa [sharesQubit] using hp
  obtain ⟨last, hlast, hcommon⟩ := h.exists_lastOnAll? hlt (List.ne_nil_of_mem hqi)
  have htop (q : Nat) (hq : q ∈ i.qubits) :
      (placesOn (front ++ (k, p) :: back) q).head? = some k ↔ q ∈ p.qubits := by
    rw [placesOn_append, placesOn_eq_nil hfront hq, List.nil_append, placesOn_cons]
    split
    next hqp => simpa using hqp
    next hqp =>
      have hback : ∀ j ∈ placesOn back q, j ≠ k :=
        List.forall_mem_map.mpr fun e he => h.ne_of_mem.2 e (List.mem_of_mem_filter he)
      exact iff_of_false (fun heq => hback k (List.mem_of_head? heq) rfl) hqp
  have hcovers : covers p i = true ↔ last = some k := by
    simp only [hcommon, covers, List.all_eq_true, List.contains_iff_mem]
    exact forall₂_congr fun q hq => (htop q hq).symm
  rw [hlast]
  by_cases hall : covers p i = true
  · rw [if_pos hall, hcovers.mp hall]
  · rw [if_neg hall]
    refine congrArg some (Option.eq_none_iff_forall_ne_some.mpr fun j hj => hall (hcovers.mpr ?_))
    have hjk : j = k := Option.some.inj ((hcommon.mp hj q hqi).symm.trans ((htop q hqi).mpr hqp))
    rw [hj, hjk]

/-- A gate without the last place on its qubits comes off, and so does the gate that covers it. -/
theorem remove (h : w.Shows n (front ++ (k, p) :: back)) (hlt : ∀ q ∈ i.qubits, q < n) (hnd : i.qubits.Nodup)
    (hfront : ∀ e ∈ front, sharesQubit e.2 i = false) (hsame : ∀ q, q ∈ p.qubits ↔ q ∈ i.qubits) :
    ∃ places slots, modifyAll? w.places i.qubits List.tail = some places ∧
      CircuitStages.modify? w.slots k (fun _ => none) = some slots ∧ Wired.Shows ⟨slots, places⟩ n (front ++ back) := by
  obtain ⟨places, hplaces, hholds⟩ := h.places.modifyAll? hlt hnd List.tail
  have hleft : Holds places n (placesOn (front ++ [] ++ back)) := by
    rw [List.append_nil]
    refine hholds.congr fun q _ => ?_
    rw [placesOn_append, placesOn_append, placesOn_cons]
    by_cases hq : q ∈ i.qubits
    · simp [hq, (hsame q).mpr hq, placesOn_eq_nil hfront hq]
    · simp [hq, mt (hsame q).mp hq]
  obtain ⟨slots, hslots, hshows⟩ := h.modify? none hleft
  exact ⟨places, slots, hplaces, hslots, by simpa using hshows⟩

theorem replace (h : w.Shows n (front ++ (k, p) :: back)) {merged : Instruction α} (hsame : merged.qubits = p.qubits) :
    ∃ slots, CircuitStages.modify? w.slots k (fun _ => some merged) = some slots ∧
      Wired.Shows ⟨slots, w.places⟩ n (front ++ (k, merged) :: back) := by
  have hleft : Holds w.places n (placesOn (front ++ [(k, merged)] ++ back)) := by
    rw [List.append_assoc, List.singleton_append]
    refine h.places.congr fun q _ => ?_
    rw [placesOn_append, placesOn_append, placesOn_cons, placesOn_cons, hsame]
  obtain ⟨slots, hslots, hshows⟩ := h.modify? (some merged) hleft
  exact ⟨slots, hslots, by simpa using hshows⟩

/-- Joining a gate with the instruction that covers it does what the walk back does there. -/
theorem exists_joinAt? (h : w.Shows n (front ++ (k, p) :: back)) (hlt : ∀ q ∈ i.qubits, q < n) (hnd : i.qubits.Nodup)
    (hfront : ∀ e ∈ front, sharesQubit e.2 i = false) (hp : sharesQubit p i = true) (hcovers : covers p i = true)
    (hjoin : KeepsOperands join) :
    ∃ joined, w.joinAt? join i k = some joined ∧
      match joined with
      | none => joinBack? join i ((front ++ (k, p) :: back).map (·.2)) = none
      | some w' => ∃ live', w'.Shows n live' ∧
          joinBack? join i ((front ++ (k, p) :: back).map (·.2)) = some (live'.map (·.2)) := by
  have hback : joinBack? join i ((front ++ (k, p) :: back).map (·.2)) =
      (joinBack? join i (p :: back.map (·.2))).map (front.map (·.2) ++ ·) := by
    rw [List.map_append, joinBack?_append (List.forall_mem_map.mpr hfront)]
    rfl
  have hat : joinBack? join i (p :: back.map (·.2)) =
      match if p.isGate && p.width == i.width then join p i else .apart with
      | .apart => none
      | .nothing => some (back.map (·.2))
      | .one merged => some (merged :: back.map (·.2)) := by
    rw [joinBack?, hp, hcovers, Bool.true_and]
    cases p.isGate && p.width == i.width <;> rfl
  rw [hback, hat, Wired.joinAt?, h.getElem?_slots]
  simp only [Option.bind_eq_bind, Option.bind_some]
  split
  next => exact ⟨none, rfl, rfl⟩
  next hnothing =>
    have hwidth : p.width = i.width := by
      by_contra hne
      simp [hne] at hnothing
    obtain ⟨places, slots, hplaces, hslots, hshows⟩ :=
      h.remove hlt hnd hfront (mem_qubits_of_covers hcovers hwidth hnd)
    refine ⟨some ⟨slots, places⟩, ?_, front ++ back, hshows, ?_⟩
    · simp [hplaces, hslots]
    · simp
  next merged hone =>
    have hjoined : join p i = .one merged := by
      split at hone
      · exact hone
      · cases hone
    obtain ⟨params, rfl⟩ := hjoin p i merged hjoined
    have hsame : (Instruction.gate p.name p.qubits params).qubits = p.qubits := rfl
    obtain ⟨slots, hslots, hshows⟩ := h.replace hsame
    refine ⟨some ⟨slots, w.places⟩, ?_, _, hshows, ?_⟩
    · simp [hslots]
    · simp

/-- One step on tables shows what one step of the walk leaves. -/
theorem step? (h : w.Shows n live) (hlt : ∀ q ∈ i.qubits, q < n) (hnd : i.qubits.Nodup) (hjoin : KeepsOperands join) :
    ∃ w' live', w.step? join i = some w' ∧ w'.Shows n live' ∧
      live'.map (·.2) = peepholeStep join (live.map (·.2)) i := by
  obtain ⟨behind, hbehind, hshows⟩ := h.append? hlt hnd
  rw [Wired.step?, peepholeStep]
  cases hjoinable : isJoinable i with
  | false => exact ⟨behind, _, hbehind, hshows, rfl⟩
  | true =>
    have hne : i.qubits ≠ [] := by
      simp only [isJoinable, Bool.and_eq_true, Bool.not_eq_true', List.isEmpty_eq_false_iff] at hjoinable
      exact hjoinable.2
    simp only [if_true]
    cases hfind : live.find? fun e => sharesQubit e.2 i with
    | none =>
      have hlive : ∀ e ∈ live, sharesQubit e.2 i = false := by simpa using hfind
      have hback : joinBack? join i (live.map (·.2)) = none := by
        have happend : joinBack? join i (live.map (·.2) ++ []) = (joinBack? join i []).map (live.map (·.2) ++ ·) :=
          joinBack?_append (List.forall_mem_map.mpr hlive)
        simpa [joinBack?] using happend
      rw [h.lastOnAll?_eq_none hlt hne hlive, hback]
      exact ⟨behind, _, hbehind, hshows, rfl⟩
    | some e =>
      obtain ⟨k, p⟩ := e
      obtain ⟨hp, front, back, rfl, hfront⟩ := List.find?_eq_some_iff_append.mp hfind
      have hfront : ∀ e ∈ front, sharesQubit e.2 i = false := by simpa using hfront
      rw [h.lastOnAll?_eq hlt hfront hp]
      by_cases hcovers : covers p i = true
      · obtain ⟨joined, hjoined, hspec⟩ := h.exists_joinAt? hlt hnd hfront hp hcovers hjoin
        simp only [hcovers, if_true, Option.bind_eq_bind, Option.bind_some, hjoined]
        cases joined with
        | none =>
          rw [hspec]
          exact ⟨behind, _, hbehind, hshows, rfl⟩
        | some w' =>
          obtain ⟨live', hlive', hback⟩ := hspec
          rw [hback]
          exact ⟨w', live', rfl, hlive', rfl⟩
      · have hback : joinBack? join i ((front ++ (k, p) :: back).map (·.2)) = none := by
          rw [List.map_append, joinBack?_append (List.forall_mem_map.mpr hfront), List.map_cons, joinBack?]
          simp [hp, hcovers]
        rw [if_neg hcovers, hback]
        exact ⟨behind, _, hbehind, hshows, rfl⟩

end Wired.Shows

theorem peepholeOnTables?_eq (hlt : ∀ i ∈ is, ∀ q ∈ i.qubits, q < n) (hnd : ∀ i ∈ is, i.qubits.Nodup)
    (hjoin : KeepsOperands join) : peepholeOnTables? join n is = some (peephole join is) := by
  have walk (w : Wired α) (live : List (Nat × Instruction α)) (h : w.Shows n live) :
      ∃ w' live', is.foldlM (Wired.step? join) w = some w' ∧ w'.Shows n live' ∧
        live'.map (·.2) = is.foldl (peepholeStep join) (live.map (·.2)) := by
    induction is generalizing w live with
    | nil => exact ⟨w, live, rfl, h, rfl⟩
    | cons i is ih =>
      obtain ⟨hi, hlt⟩ := List.forall_mem_cons.mp hlt
      obtain ⟨hndi, hnd⟩ := List.forall_mem_cons.mp hnd
      obtain ⟨w₁, live₁, hstep, hshows, hlive⟩ := h.step? hi hndi hjoin
      obtain ⟨w₂, live₂, hfold, hlast, heq⟩ := ih hlt hnd w₁ live₁ hshows
      refine ⟨w₂, live₂, ?_, hlast, ?_⟩
      · rw [List.foldlM_cons, hstep]
        exact hfold
      · rw [heq, hlive, List.foldl_cons]
  obtain ⟨w, live, hfold, hshows, hlive⟩ := walk _ [] (shows_start n)
  rw [peepholeOnTables?, hfold, peephole]
  exact congrArg some (hshows.toList_slots.trans (congrArg List.reverse hlive))

end CircuitStages
