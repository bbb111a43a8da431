namespace CircuitStages

/-- The entries before `x`, then `x`, then the entries after it; what is level with `x` gives way to it. -/
def insertBy {α : Type} (before : α → α → Bool) (x : α) (xs : List α) : List α :=
  xs.filter (before · x) ++ x :: xs.filter (before x ·)

/-- The distinct members of a list in ascending order. -/
def ascending {α : Type} (before : α → α → Bool) (xs : List α) : List α :=
  xs.foldl (fun found x => insertBy before x found) []

def ascendingNats (xs : List Nat) : List Nat := ascending (fun a b => decide (a < b)) xs

theorem pairwise_insertBy {α : Type} {before : α → α → Bool}
    (trans : ∀ a b c, before a b → before b c → before a c) (x : α) {xs : List α}
    (h : xs.Pairwise (fun a b => before a b)) : (insertBy before x xs).Pairwise (fun a b => before a b) := by
  refine List.pairwise_append.2 ⟨h.filter _, List.pairwise_cons.2 ⟨?_, h.filter _⟩, ?_⟩
  · intro b hb
    exact (List.mem_filter.1 hb).2
  · intro a ha b hb
    have hax := (List.mem_filter.1 ha).2
    rcases List.mem_cons.1 hb with rfl | hb
    · exact hax
    · exact trans _ _ _ hax (List.mem_filter.1 hb).2

theorem mem_insertBy {α : Type} {before : α → α → Bool} {x y : α} {xs : List α} :
    y ∈ insertBy before x xs ↔ y = x ∨ (y ∈ xs ∧ (before y x ∨ before x y)) := by
  simp only [insertBy, List.mem_append, List.mem_cons, List.mem_filter]
  grind

theorem pairwise_ascending {α : Type} {before : α → α → Bool}
    (trans : ∀ a b c, before a b → before b c → before a c) (xs : List α) :
    (ascending before xs).Pairwise (fun a b => before a b) := by
  have loop : ∀ found : List α, found.Pairwise (fun a b => before a b) →
      (xs.foldl (fun found x => insertBy before x found) found).Pairwise (fun a b => before a b) := by
    induction xs with
    | nil => exact fun found h => h
    | cons x xs ih => exact fun found h => ih _ (pairwise_insertBy trans x h)
  exact loop [] List.Pairwise.nil

/-- Lists that strictly ascend by a numeric key are equal if they have the same members. -/
theorem eq_of_pairwise_lt {α : Type} {key : α → Nat} {xs ys : List α} (hx : xs.Pairwise (key · < key ·))
    (hy : ys.Pairwise (key · < key ·)) (h : ∀ x, x ∈ xs ↔ x ∈ ys) : xs = ys := by
  have distinct {zs : List α} (hz : zs.Pairwise (key · < key ·)) : zs.Nodup :=
    hz.imp fun {a b} hab heq => by rw [heq] at hab; exact Nat.lt_irrefl _ hab
  refine List.Perm.eq_of_pairwise (fun a b _ _ hab hba => ?_) hx hy
    ((List.perm_ext_iff_of_nodup (distinct hx) (distinct hy)).2 h)
  exact absurd hab (Nat.lt_asymm hba)

/-- Where no value occurs twice, each value belongs to one member. -/
theorem eq_of_nodup_map {α β : Type} {f : α → β} {xs : List α} (h : (xs.map f).Nodup) {a b : α} (ha : a ∈ xs)
    (hb : b ∈ xs) (hab : f a = f b) : a = b := by
  induction xs with
  | nil => simp at ha
  | cons x xs ih =>
    simp only [List.map_cons, List.nodup_cons, List.mem_map, not_exists, not_and] at h
    rcases List.mem_cons.1 ha with rfl | ha' <;> rcases List.mem_cons.1 hb with rfl | hb'
    · rfl
    · exact absurd hab.symm (h.1 b hb')
    · exact absurd hab (h.1 a ha')
    · exact ih h.2 ha' hb'

def strictlyAscends : List Nat → Bool
  | a :: b :: rest => decide (a < b) && strictlyAscends (b :: rest)
  | _ => true

theorem strictlyAscends_iff (xs : List Nat) : strictlyAscends xs ↔ xs.Pairwise (· < ·) := by
  fun_induction strictlyAscends xs with
  | case1 a b rest ih =>
    simp only [Bool.and_eq_true, decide_eq_true_eq, ih, List.pairwise_cons, List.mem_cons]
    constructor
    · rintro ⟨hab, hb, hrest⟩
      refine ⟨?_, hb, hrest⟩
      rintro c (rfl | hc)
      · exact hab
      · exact Nat.lt_trans hab (hb c hc)
    · rintro ⟨ha, hb, hrest⟩
      exact ⟨ha b (.inl rfl), hb, hrest⟩
  | case2 xs short =>
    match xs, short with
    | [], _ => simp
    | [a], _ => simp
    | a :: b :: rest, short => exact absurd rfl (short a b rest)

def allDistinct (xs : List Nat) : Bool := strictlyAscends xs.mergeSort

theorem allDistinct_iff (xs : List Nat) : allDistinct xs ↔ xs.Nodup := by
  have sorted : xs.mergeSort.Pairwise (fun a b => decide (a ≤ b)) :=
    List.pairwise_mergeSort (by intro a b c; simpa using Nat.le_trans) (by intro a b; simpa using Nat.le_total a b) xs
  rw [allDistinct, strictlyAscends_iff, ← (List.mergeSort_perm xs (fun a b => a ≤ b)).nodup_iff]
  constructor
  · exact fun h => h.imp Nat.ne_of_lt
  · exact fun h => sorted.imp₂ (fun a b hle hne => Nat.lt_of_le_of_ne (of_decide_eq_true hle) hne) h

/-- Whether a text comes first: by the first place where the two differ, or as a beginning of the other. -/
def textBefore (s t : String) : Bool := s < t

theorem textBefore_trans (s t u : String) (hst : textBefore s t) (htu : textBefore t u) : textBefore s u :=
  decide_eq_true (String.lt_trans (of_decide_eq_true hst) (of_decide_eq_true htu))

def ascendingTexts (xs : List String) : List String := ascending textBefore xs

/-- Sets the value of a key in a list of entries that ascends by key. -/
def insertEntry {ν : Type} (key : String) (value : ν) (entries : List (String × ν)) : List (String × ν) :=
  insertBy (fun a b => textBefore a.1 b.1) (key, value) entries

end CircuitStages
