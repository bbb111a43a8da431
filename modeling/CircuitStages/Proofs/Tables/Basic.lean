import Mathlib.Data.List.Nodup
import Mathlib.Logic.Function.Basic

namespace CircuitStages

/-! A table has an entry for every number below its size, and an access out of range is a fault, which ends the
computation with nothing. A computation with faults and errors that mirrors one with errors alone never comes to a
fault, so the two are followed step by step. -/

variable {β : Type}

/-- The entries at some places of a table. -/
def readAll? (table : Array β) (places : List Nat) : Option (List β) := places.mapM (table[·]?)

def modify? (table : Array β) (place : Nat) (f : β → β) : Option (Array β) :=
  if place < table.size then some (table.modify place f) else none

/-- The table with its entries at some places changed one after the other. -/
def modifyAll? (table : Array β) (places : List Nat) (f : β → β) : Option (Array β) :=
  places.foldlM (fun table place => modify? table place f) table

def writeAll? (table : Array β) (places : List Nat) (value : β) : Option (Array β) :=
  modifyAll? table places fun _ => value

/-- Whether a table has the values of a function at all places below a size, and no others. -/
structure Holds (table : Array β) (n : Nat) (f : Nat → β) : Prop where
  size_eq : table.size = n
  getElem?_eq : ∀ k < n, table[k]? = some (f k)

/-- Lookups that all succeed can be taken together. -/
theorem mapM_eq_some_map {γ : Type} {f : β → Option γ} {g : β → γ} {xs : List β} (h : ∀ x ∈ xs, f x = some (g x)) :
    xs.mapM f = some (xs.map g) := by
  induction xs with
  | nil => rfl
  | cons x xs ih =>
    obtain ⟨hx, hrest⟩ := List.forall_mem_cons.mp h
    rw [List.mapM_cons, hx, ih hrest]
    rfl

variable {table : Array β} {n k : Nat} {f : Nat → β} {places : List Nat}

theorem holds_replicate (n : Nat) (value : β) : Holds (Array.replicate n value) n fun _ => value := by
  refine ⟨Array.size_replicate, fun k hk => ?_⟩
  rw [Array.getElem?_replicate, if_pos hk]

namespace Holds

theorem congr {g : Nat → β} (h : Holds table n f) (hfg : ∀ k < n, f k = g k) : Holds table n g :=
  ⟨h.size_eq, fun k hk => (h.getElem?_eq k hk).trans (congrArg some (hfg k hk))⟩

theorem map {γ : Type} (h : Holds table n f) (g : β → γ) : Holds (table.map g) n fun k => g (f k) := by
  refine ⟨Array.size_map.trans h.size_eq, fun k hk => ?_⟩
  rw [Array.getElem?_map, h.getElem?_eq k hk]
  rfl

theorem toList_eq (h : Holds table n f) : table.toList = (List.range n).map f := by
  refine List.ext_getElem? fun k => ?_
  rw [Array.getElem?_toList, List.getElem?_map]
  rcases Nat.lt_or_ge k n with hk | hk
  · rw [h.getElem?_eq k hk, List.getElem?_range hk]
    rfl
  · rw [Array.getElem?_eq_none (h.size_eq ▸ hk), List.getElem?_eq_none (by simpa using hk)]
    rfl

theorem unique {other : Array β} (h : Holds table n f) (hother : Holds other n f) : table = other :=
  Array.toList_inj.mp (h.toList_eq.trans hother.toList_eq.symm)

theorem readAll?_eq (h : Holds table n f) (hplaces : ∀ k ∈ places, k < n) :
    readAll? table places = some (places.map f) :=
  mapM_eq_some_map fun k hk => h.getElem?_eq k (hplaces k hk)

theorem modify? (h : Holds table n f) (hk : k < n) (g : β → β) :
    ∃ changed, modify? table k g = some changed ∧ Holds changed n (Function.update f k (g (f k))) := by
  refine ⟨_, if_pos (h.size_eq.symm ▸ hk), Array.size_modify.trans h.size_eq, fun j hj => ?_⟩
  rw [Array.getElem?_modify, h.getElem?_eq j hj]
  by_cases hjk : k = j
  · subst hjk
    rw [if_pos rfl, Function.update_self]
    rfl
  · rw [if_neg hjk, Function.update_of_ne (Ne.symm hjk)]

/-- Different places can be changed in turn. -/
theorem modifyAll? (h : Holds table n f) (hplaces : ∀ k ∈ places, k < n) (hnd : places.Nodup) (g : β → β) :
    ∃ changed, modifyAll? table places g = some changed ∧
      Holds changed n fun k => if k ∈ places then g (f k) else f k := by
  induction places generalizing table f with
  | nil => exact ⟨table, rfl, by simpa using h⟩
  | cons k places ih =>
    obtain ⟨hk, hrest⟩ := List.forall_mem_cons.mp hplaces
    obtain ⟨hnew, hnd⟩ := List.nodup_cons.mp hnd
    obtain ⟨first, hfirst, hholds⟩ := h.modify? hk g
    obtain ⟨changed, hchanged, hlast⟩ := ih hholds hrest hnd
    refine ⟨changed, ?_, hlast.congr fun j _ => ?_⟩
    · rw [CircuitStages.modifyAll?, List.foldlM_cons, hfirst]
      exact hchanged
    · by_cases hjk : j = k
      · subst hjk
        simp [hnew]
      · simp [hjk]

theorem writeAll? (h : Holds table n f) (hplaces : ∀ k ∈ places, k < n) (value : β) :
    ∃ changed, writeAll? table places value = some changed ∧
      Holds changed n fun k => if k ∈ places then value else f k := by
  induction places generalizing table f with
  | nil => exact ⟨table, rfl, by simpa using h⟩
  | cons k places ih =>
    obtain ⟨hk, hrest⟩ := List.forall_mem_cons.mp hplaces
    obtain ⟨first, hfirst, hholds⟩ := h.modify? hk fun _ => value
    obtain ⟨changed, hchanged, hlast⟩ := ih hholds hrest
    refine ⟨changed, ?_, hlast.congr fun j _ => ?_⟩
    · rw [CircuitStages.writeAll?, CircuitStages.modifyAll?, List.foldlM_cons, hfirst]
      exact hchanged
    · by_cases hjk : j = k
      · simp [hjk]
      · simp [hjk]

end Holds

/-- A computation that can end in an error, or in a fault with nothing. -/
abbrev Checked (ε β : Type) := ExceptT ε Option β

/-- A computation that can end in an error, without faults. -/
def Checked.ofExcept {ε : Type} (x : Except ε β) : Checked ε β := ExceptT.mk (some x)

section Mirrors

variable {ε γ β' γ' : Type} {R : β → γ → Prop} {S : β' → γ' → Prop} {x : Checked ε β} {y : Except ε γ}

/-- Whether one computation has no fault and ends like another: with the same error, or with results in relation `R`. -/
def Mirrors (R : β → γ → Prop) (x : Checked ε β) (y : Except ε γ) : Prop :=
  match y with
  | .ok c => ∃ b, x.run = some (.ok b) ∧ R b c
  | .error e => x.run = some (.error e)

namespace Mirrors

theorem pure {b : β} {c : γ} (h : R b c) : Mirrors R (Pure.pure b : Checked ε β) (.ok c) := ⟨b, rfl, h⟩

theorem throw (e : ε) : Mirrors R (MonadExcept.throw e : Checked ε β) (.error e) := rfl

/-- Computations that mirror each other go on mirroring each other if what follows on related results does. -/
theorem bind {f : β → Checked ε β'} {g : γ → Except ε γ'} (h : Mirrors R x y)
    (hf : ∀ b c, y = .ok c → R b c → Mirrors S (f b) (g c)) : Mirrors S (x >>= f) (y >>= g) := by
  cases y with
  | error e =>
    have hrun : (x >>= f).run = some (.error e) := by rw [ExceptT.run_bind, h]; rfl
    exact hrun
  | ok c =>
    obtain ⟨b, hb, hR⟩ := h
    have hrun : (x >>= f).run = (f b).run := by rw [ExceptT.run_bind, hb]; rfl
    rw [ExceptT.ext hrun]
    exact hf b c rfl hR

theorem map {x : Checked ε β} {y : Except ε β} (h : Mirrors Eq x y) (f : β → β') : Mirrors Eq (f <$> x) (f <$> y) := by
  cases y with
  | error e =>
    have hrun : (f <$> x).run = some (.error e) := by rw [ExceptT.run_map, h]; rfl
    exact hrun
  | ok c =>
    obtain ⟨b, hb, rfl⟩ := h
    have hrun : (f <$> x).run = some (.ok (f b)) := by rw [ExceptT.run_map, hb]; rfl
    exact ⟨f b, hrun, rfl⟩

/-- An access that is in range leaves the computation to what follows. -/
theorem lift {a : Option β'} {b : β'} {f : β' → Checked ε β} (ha : a = some b) (hf : Mirrors R (f b) y) :
    Mirrors R (liftM a >>= f) y := by
  subst ha
  exact hf

theorem foldlM {δ : Type} {xs : List δ} {f : β → δ → Checked ε β} {g : γ → δ → Except ε γ} {b : β} {c : γ}
    (h : R b c) (hstep : ∀ x ∈ xs, ∀ b c, R b c → Mirrors R (f b x) (g c x)) :
    Mirrors R (xs.foldlM f b) (xs.foldlM g c) := by
  induction xs generalizing b c with
  | nil => exact pure h
  | cons x xs ih =>
    obtain ⟨hx, hrest⟩ := List.forall_mem_cons.mp hstep
    exact (hx b c h).bind fun b' c' _ h' => ih h' hrest

end Mirrors

theorem mirrors_eq_iff {z : Except ε β} : Mirrors Eq x z ↔ x.run = some z := by
  cases z with
  | error e => rfl
  | ok b => exact exists_eq_right

theorem mirrors_ofExcept (z : Except ε β) : Mirrors Eq (Checked.ofExcept z) z := mirrors_eq_iff.mpr rfl

theorem mirrors_mapM {δ : Type} {xs : List δ} {f : δ → Checked ε β} {g : δ → Except ε β}
    (h : ∀ x ∈ xs, Mirrors Eq (f x) (g x)) : Mirrors Eq (xs.mapM f) (xs.mapM g) := by
  induction xs with
  | nil => exact .pure rfl
  | cons x xs ih =>
    obtain ⟨hx, hrest⟩ := List.forall_mem_cons.mp h
    rw [List.mapM_cons, List.mapM_cons]
    refine hx.bind fun b c _ hbc => (ih hrest).bind fun bs cs _ hbcs => ?_
    subst hbc hbcs
    exact .pure rfl

end Mirrors

end CircuitStages
