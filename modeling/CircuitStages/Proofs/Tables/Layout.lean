import CircuitStages.Proofs.Circuit.Layout
import Mathlib.Data.Finmap
import Mathlib.Data.Finset.Sort

namespace CircuitStages

/-- A table that holds at most one number for each number. -/
abbrev NumberTable := Finmap fun _ : Nat => Nat

namespace NumberTable

variable (table : NumberTable)

def value? (k : Nat) : Option Nat := Finmap.lookup k table

theorem value?_empty (k : Nat) : value? ∅ k = none := Finmap.lookup_empty k

theorem value?_insert (k x j : Nat) : value? (table.insert k x) j = if j = k then some x else value? table j := by
  rw [value?, value?]
  split
  next h => rw [h, Finmap.lookup_insert]
  next h => rw [Finmap.lookup_insert_of_ne _ h]

theorem value?_erase (k j : Nat) : value? (table.erase k) j = if j = k then none else value? table j := by
  rw [value?, value?]
  split
  next h => rw [h, Finmap.lookup_erase]
  next h => rw [Finmap.lookup_erase_ne h]

/-- The table without the entry of a number, if there is one to go and it is not the number to be kept. -/
def dropUnless (going : Option Nat) (kept : Nat) : NumberTable :=
  match going with
  | some k => if k = kept then table else table.erase k
  | none => table

theorem value?_dropUnless_kept (going : Option Nat) (kept : Nat) :
    value? (dropUnless table going kept) kept = value? table kept := by
  cases going with
  | none => rfl
  | some k =>
    rw [dropUnless]
    split
    next => rfl
    next h => rw [value?_erase, if_neg (Ne.symm h)]

theorem value?_dropUnless {kept j : Nat} (hj : j ≠ kept) (going : Option Nat) :
    value? (dropUnless table going kept) j = if going = some j then none else value? table j := by
  cases going with
  | none => rw [dropUnless, if_neg nofun]
  | some k =>
    rw [dropUnless]
    split
    next h => rw [if_neg fun hk => hj ((Option.some.inj hk).symm.trans h)]
    next => simp only [value?_erase, Option.some.injEq, eq_comm]

end NumberTable

structure LayoutTables where
  /-- The position of each virtual qubit that has one. -/
  positions : NumberTable
  /-- The virtual qubit at each position that is taken. -/
  occupants : NumberTable
deriving DecidableEq

/-- Whether a scan of pairs meets a virtual qubit or a position that it has met before. -/
def meetsAgain (virtuals positions : List Nat) : List (Nat × Nat) → Bool
  | [] => false
  | e :: rest =>
    virtuals.contains e.1 || positions.contains e.2 || meetsAgain (e.1 :: virtuals) (e.2 :: positions) rest

namespace LayoutTables

def empty : LayoutTables := ⟨∅, ∅⟩

def physical? (t : LayoutTables) (v : Nat) : Option Nat := t.positions.value? v

def virtual? (t : LayoutTables) (p : Nat) : Option Nat := t.occupants.value? p

/-- Makes `v` and `p` partners, after the entries of their former partners have been dropped. -/
def add (t : LayoutTables) (v p : Nat) : LayoutTables :=
  let positions := NumberTable.dropUnless t.positions (t.occupants.value? p) v
  let occupants := NumberTable.dropUnless t.occupants (positions.value? v) p
  ⟨positions.insert v p, occupants.insert p v⟩

/-- Puts a virtual qubit, if there is one, at a position. What either was partner of before is left in place. -/
def seat (t : LayoutTables) (v : Option Nat) (p : Nat) : LayoutTables :=
  match v with
  | some v => ⟨t.positions.insert v p, t.occupants.insert p v⟩
  | none => t

/-- Takes what is at two positions away, and puts it back the other way round. -/
def swap (t : LayoutTables) (a b : Nat) : LayoutTables :=
  let v := t.occupants.value? a
  let w := NumberTable.value? (t.occupants.erase a) b
  ((⟨t.positions, (t.occupants.erase a).erase b⟩ : LayoutTables).seat v b).seat w a

def ofPairs (pairs : List (Nat × Nat)) : LayoutTables := pairs.foldl (fun t e => t.add e.1 e.2) empty

def trivial (n : Nat) : LayoutTables := (List.range n).foldl (fun t q => t.add q q) empty

/-- The tables for pairs without conflicts. -/
def ofDistinct (pairs : List (Nat × Nat)) : Except CircuitError LayoutTables :=
  if meetsAgain [] [] pairs then .error (.layoutMismatch .mappedTwice) else .ok (ofPairs pairs)

def size (t : LayoutTables) : Nat := t.positions.keys.card

/-- The pairs in ascending order of their virtual qubits. -/
def entries (t : LayoutTables) : List (Nat × Nat) :=
  (t.positions.keys.sort (· ≤ ·)).filterMap fun v => (t.positions.value? v).map fun p => (v, p)

variable {t : LayoutTables} {l : Layout}

theorem physical?_add (t : LayoutTables) (v p w : Nat) : (t.add v p).physical? w =
    if w = v then some p else if t.virtual? p = some w then none else t.physical? w := by
  rw [physical?, add, NumberTable.value?_insert]
  split
  next => rfl
  next h => exact NumberTable.value?_dropUnless _ h _

theorem virtual?_add (t : LayoutTables) (v p q : Nat) : (t.add v p).virtual? q =
    if q = p then some v else if t.physical? v = some q then none else t.virtual? q := by
  rw [virtual?, add, NumberTable.value?_insert]
  split
  next => rfl
  next h =>
    rw [NumberTable.value?_dropUnless _ h, NumberTable.value?_dropUnless_kept]
    rfl

theorem physical?_seat (t : LayoutTables) (v : Option Nat) (p w : Nat) :
    (t.seat v p).physical? w = if v = some w then some p else t.physical? w := by
  cases v with
  | none => simp [seat]
  | some v =>
    rw [physical?, seat, NumberTable.value?_insert]
    simp [physical?, eq_comm]

theorem virtual?_seat (t : LayoutTables) (v : Option Nat) (p q : Nat) :
    (t.seat v p).virtual? q = if q = p then v.or (t.virtual? q) else t.virtual? q := by
  cases v with
  | none => simp [seat]
  | some v =>
    rw [virtual?, seat, NumberTable.value?_insert]
    simp [virtual?]

/-- What was at a position is at the other one afterwards. -/
theorem virtual?_swap (t : LayoutTables) (a b q : Nat) : (t.swap a b).virtual? q = t.virtual? (exchange a b q) := by
  rw [swap, virtual?_seat, virtual?_seat]
  simp only [virtual?, NumberTable.value?_erase, exchange]
  by_cases hqa : q = a <;> by_cases hqb : q = b
  · subst hqa hqb
    simp
  · subst hqa
    simp [hqb, Ne.symm hqb]
  · subst hqb
    simp [hqa]
  · simp [hqa, hqb]

theorem physical?_swap (t : LayoutTables) (a b w : Nat) : (t.swap a b).physical? w =
    if t.virtual? b = some w then some a else if t.virtual? a = some w then some b else t.physical? w := by
  rw [swap, physical?_seat, physical?_seat, NumberTable.value?_erase]
  by_cases hab : b = a
  · subst hab
    by_cases hw : t.occupants.value? b = some w
    · simp [virtual?, hw]
    · simp [virtual?, physical?, hw]
  · rw [if_neg hab]
    rfl

/-- Whether both tables have exactly the pairs of a layout. -/
structure Keeps (t : LayoutTables) (l : Layout) : Prop where
  physical?_iff : ∀ v p, t.physical? v = some p ↔ (v, p) ∈ l.pairs
  virtual?_iff : ∀ v p, t.virtual? p = some v ↔ (v, p) ∈ l.pairs

namespace Keeps

theorem physical?_eq (h : t.Keeps l) (v : Nat) : t.physical? v = l.physical? v := by
  ext p
  rw [h.physical?_iff, Layout.physical?_eq_some_iff]

theorem virtual?_eq (h : t.Keeps l) (p : Nat) : t.virtual? p = l.virtual? p := by
  ext v
  rw [h.virtual?_iff, Layout.virtual?_eq_some_iff]

/-- The tables are fixed by what they keep. -/
theorem unique {other : LayoutTables} (h : t.Keeps l) (hother : other.Keeps l) : t = other := by
  have hpositions : t.positions = other.positions :=
    Finmap.ext_lookup fun v => (h.physical?_eq v).trans (hother.physical?_eq v).symm
  have hoccupants : t.occupants = other.occupants :=
    Finmap.ext_lookup fun p => (h.virtual?_eq p).trans (hother.virtual?_eq p).symm
  cases t
  cases other
  cases hpositions
  cases hoccupants
  rfl

theorem empty : LayoutTables.empty.Keeps .empty := by
  constructor
  · intro v p
    simp [physical?, LayoutTables.empty, Layout.empty, NumberTable.value?_empty]
  · intro v p
    simp [virtual?, LayoutTables.empty, Layout.empty, NumberTable.value?_empty]

/-- A pair stays if it shares neither side with the new one. Its own entries cannot be those that are dropped, since
each side has one partner only. -/
theorem add (h : t.Keeps l) (v p : Nat) : (t.add v p).Keeps (l.add v p) := by
  have hphysical (w q : Nat) := h.physical?_iff w q
  have hvirtual (w q : Nat) := h.virtual?_iff w q
  have honce (w q q' : Nat) (hq : (w, q) ∈ l.pairs) (hq' : (w, q') ∈ l.pairs) : q = q' := by
    rw [← hphysical] at hq hq'
    exact Option.some.inj (hq.symm.trans hq')
  have hone (w w' q : Nat) (hw : (w, q) ∈ l.pairs) (hw' : (w', q) ∈ l.pairs) : w = w' := by
    rw [← hvirtual] at hw hw'
    exact Option.some.inj (hw.symm.trans hw')
  constructor
  · intro w q
    rw [physical?_add, Layout.mem_add]
    grind
  · intro w q
    rw [virtual?_add, Layout.mem_add]
    grind

theorem swap (h : t.Keeps l) (a b : Nat) : (t.swap a b).Keeps (l.swap a b) := by
  have hphysical (w q : Nat) := h.physical?_iff w q
  have hvirtual (w q : Nat) := h.virtual?_iff w q
  constructor
  · intro w q
    rw [physical?_swap, Layout.mem_swap, exchange]
    grind
  · intro w q
    rw [virtual?_swap, Layout.mem_swap, hvirtual]

theorem foldl_add (h : t.Keeps l) (pairs : List (Nat × Nat)) :
    (pairs.foldl (fun t e => t.add e.1 e.2) t).Keeps (pairs.foldl (fun l e => l.add e.1 e.2) l) := by
  induction pairs generalizing t l with
  | nil => exact h
  | cons e pairs ih => exact ih (h.add e.1 e.2)

theorem ofPairs (pairs : List (Nat × Nat)) : (LayoutTables.ofPairs pairs).Keeps (.ofPairs pairs) := by
  rw [Layout.ofPairs_eq_foldl]
  exact empty.foldl_add pairs

theorem trivial (n : Nat) : (LayoutTables.trivial n).Keeps (.trivial n) := by
  have htables : LayoutTables.ofPairs (Layout.trivial n).pairs = .trivial n := List.foldl_map
  have hkeeps := ofPairs (Layout.trivial n).pairs
  rwa [htables, Layout.ofPairs_pairs] at hkeeps

theorem mem_keys_iff (h : t.Keeps l) {v : Nat} : v ∈ t.positions.keys ↔ ∃ p, (v, p) ∈ l.pairs := by
  rw [Finmap.mem_keys, Finmap.mem_iff]
  exact exists_congr fun p => h.physical?_iff v p

theorem size_eq (h : t.Keeps l) : t.size = l.size := by
  have hkeys : t.positions.keys = (l.pairs.map (·.1)).toFinset := by
    ext v
    simp [h.mem_keys_iff]
  rw [size, hkeys, List.toFinset_card_of_nodup l.nodup_virtual, List.length_map]
  rfl

/-- The tables list the pairs as the layout does. -/
theorem entries_eq (h : t.Keeps l) : t.entries = l.pairs := by
  have hmem (v : Nat) (e : Nat × Nat) : e ∈ (t.positions.value? v).map (fun p => (v, p)) ↔ e ∈ l.pairs ∧ e.1 = v := by
    rw [Option.mem_def, Option.map_eq_some_iff]
    constructor
    · rintro ⟨p, hp, rfl⟩
      exact ⟨(h.physical?_iff v p).mp hp, rfl⟩
    · rintro ⟨he, rfl⟩
      exact ⟨e.2, (h.physical?_iff e.1 e.2).mpr he, rfl⟩
  refine @eq_of_pairwise_lt _ Prod.fst _ _ ?_ l.ascending fun e => ?_
  · rw [entries, List.pairwise_filterMap]
    refine (Finset.sortedLT_sort t.positions.keys).pairwise.imp fun hvw e he f hf => ?_
    rwa [((hmem _ e).mp he).2, ((hmem _ f).mp hf).2]
  · simp only [entries, List.mem_filterMap, Finset.mem_sort, h.mem_keys_iff, ← Option.mem_def, hmem]
    constructor
    · rintro ⟨v, -, he, -⟩
      exact he
    · exact fun he => ⟨e.1, ⟨e.2, he⟩, he, rfl⟩

end Keeps

theorem meetsAgain_eq_false_iff {virtuals positions : List Nat} {pairs : List (Nat × Nat)} :
    meetsAgain virtuals positions pairs = false ↔ (pairs.map (·.1)).Nodup ∧ (pairs.map (·.2)).Nodup ∧
      ∀ e ∈ pairs, e.1 ∉ virtuals ∧ e.2 ∉ positions := by
  induction pairs generalizing virtuals positions with
  | nil => simp [meetsAgain]
  | cons e pairs ih =>
    simp only [meetsAgain, Bool.or_eq_false_iff, ih, List.map_cons, List.nodup_cons, List.contains_eq_mem,
      decide_eq_false_iff_not, List.mem_cons, not_or, List.mem_map]
    grind

/-- A scan finds exactly the conflicts. -/
theorem meetsAgain_eq (pairs : List (Nat × Nat)) : meetsAgain [] [] pairs = Layout.hasConflicts pairs := by
  rw [Bool.eq_iff_iff, ← not_iff_not, Bool.not_eq_true, Bool.not_eq_true, meetsAgain_eq_false_iff,
    Layout.hasConflicts_eq_false_iff]
  simp

/-- The layouts that come about by any run of operations, kept in tables and plain. -/
inductive Built : LayoutTables → Layout → Prop
  | empty : Built .empty .empty
  | trivial (n : Nat) : Built (.trivial n) (.trivial n)
  | ofPairs (pairs : List (Nat × Nat)) : Built (.ofPairs pairs) (.ofPairs pairs)
  | decoded {pairs : List (Nat × Nat)} {t : LayoutTables} {l : Layout} :
      ofDistinct pairs = .ok t → Layout.ofDistinct pairs = .ok l → Built t l
  | add {t : LayoutTables} {l : Layout} (v p : Nat) : Built t l → Built (t.add v p) (l.add v p)
  | swap {t : LayoutTables} {l : Layout} (a b : Nat) : Built t l → Built (t.swap a b) (l.swap a b)

/-- No operation brings the tables out of step. -/
theorem Built.keeps (h : Built t l) : t.Keeps l := by
  induction h with
  | empty => exact .empty
  | trivial n => exact .trivial n
  | ofPairs pairs => exact .ofPairs pairs
  | @decoded pairs _ _ ht hl =>
    rw [ofDistinct, meetsAgain_eq] at ht
    rw [Layout.ofDistinct] at hl
    split at ht
    next => cases ht
    next hno =>
      rw [if_neg hno] at hl
      cases ht
      cases hl
      exact .ofPairs pairs
  | add v p _ ih => exact ih.add v p
  | swap a b _ ih => exact ih.swap a b

/-- An exchange of two positions undoes itself. -/
theorem Keeps.swap_swap (h : t.Keeps l) (a b : Nat) : (t.swap a b).swap a b = t := by
  have htwice := (h.swap a b).swap a b
  rw [Layout.swap_swap] at htwice
  exact htwice.unique h

/-- However a layout has come about, its two tables are inverse to each other and say what the plain layout says. A new
pair drops the former partners of its two sides, and leaves all other pairs alone. An exchange of two positions acts on
positions as their transposition, whether or not they differ and whatever is there; it keeps the virtual qubits that
have a position, and undoes itself. -/
theorem inverse_of_built (h : Built t l) :
    (∀ v p, t.physical? v = some p ↔ t.virtual? p = some v) ∧
    ((∀ v, t.physical? v = l.physical? v) ∧ (∀ p, t.virtual? p = l.virtual? p) ∧ t.size = l.size) ∧
    (∀ v p, (t.add v p).physical? v = some p ∧ (t.add v p).virtual? p = some v ∧
      (∀ q, t.physical? v = some q → q ≠ p → (t.add v p).virtual? q = none) ∧
      (∀ w, t.virtual? p = some w → w ≠ v → (t.add v p).physical? w = none) ∧
      ∀ w q, w ≠ v → q ≠ p → ((t.add v p).physical? w = some q ↔ t.physical? w = some q) ∧
        ((t.add v p).virtual? q = some w ↔ t.virtual? q = some w)) ∧
    ∀ a b, (∀ v, (t.swap a b).physical? v = (t.physical? v).map (Equiv.swap a b)) ∧
      (∀ p, (t.swap a b).virtual? p = t.virtual? (Equiv.swap a b p)) ∧
      (∀ v, ((t.swap a b).physical? v).isSome = (t.physical? v).isSome) ∧
      (t.swap a b).size = t.size ∧ (t.swap a b).swap a b = t := by
  have hkeeps := h.keeps
  have hinverse (v p : Nat) : t.physical? v = some p ↔ t.virtual? p = some v := by
    rw [hkeeps.physical?_iff, hkeeps.virtual?_iff]
  refine ⟨hinverse, ⟨hkeeps.physical?_eq, hkeeps.virtual?_eq, hkeeps.size_eq⟩, fun v p => ?_, fun a b => ?_⟩
  · refine ⟨?_, ?_, fun q hq hne => ?_, fun w hw hne => ?_, fun w q hw hq => ⟨?_, ?_⟩⟩
    · rw [physical?_add, if_pos rfl]
    · rw [virtual?_add, if_pos rfl]
    · rw [virtual?_add, if_neg hne, if_pos hq]
    · rw [physical?_add, if_neg hne, if_pos hw]
    · rw [(hkeeps.add v p).physical?_iff, hkeeps.physical?_iff, Layout.mem_add]
      simp [hw, hq]
    · rw [(hkeeps.add v p).virtual?_iff, hkeeps.virtual?_iff, Layout.mem_add]
      simp [hw, hq]
  · have hmoved (v : Nat) : (t.swap a b).physical? v = (t.physical? v).map (Equiv.swap a b) := by
      rw [(hkeeps.swap a b).physical?_eq, Layout.physical?_swap, hkeeps.physical?_eq]
    refine ⟨hmoved, fun p => ?_, fun v => ?_, ?_, hkeeps.swap_swap a b⟩
    · rw [virtual?_swap, exchange_eq_swap]
    · rw [hmoved, Option.isSome_map]
    · rw [(hkeeps.swap a b).size_eq, hkeeps.size_eq]
      exact List.length_map _

/-- Pairs that take over from each other on both sides, then exchanges with a free position and of one with itself. -/
theorem inverse_of_built_takeover :
    let t := ((((ofPairs [(0, 3), (1, 3), (1, 2)]).add 4 2).add 4 5).swap 5 7).swap 6 6
    t.Built (((((Layout.ofPairs [(0, 3), (1, 3), (1, 2)]).add 4 2).add 4 5).swap 5 7).swap 6 6) ∧
      t.entries = [(4, 7)] ∧ t.virtual? 2 = none ∧ (∀ v p, t.physical? v = some p ↔ t.virtual? p = some v) ∧
      (t.swap 7 3).swap 7 3 = t := by
  have hbuilt := ((((Built.ofPairs [(0, 3), (1, 3), (1, 2)]).add 4 2).add 4 5).swap 5 7).swap 6 6
  obtain ⟨hinverse, -, -, hswap⟩ := inverse_of_built hbuilt
  exact ⟨hbuilt, by decide +kernel, by decide +kernel, hinverse, (hswap 7 3).2.2.2.2⟩

end LayoutTables

end CircuitStages
