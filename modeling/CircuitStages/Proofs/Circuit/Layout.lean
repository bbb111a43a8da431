import CircuitStages.Circuit.Layout
import Mathlib.Data.List.Nodup
import Mathlib.Logic.Equiv.Basic

namespace CircuitStages

theorem exchange_eq_swap (a b p : Nat) : exchange a b p = Equiv.swap a b p := by
  rw [exchange, Equiv.swap_apply_def]

namespace Layout

theorem nodup_virtual (l : Layout) : (l.pairs.map (·.1)).Nodup :=
  List.pairwise_map.mpr (l.ascending.imp fun hlt => Nat.ne_of_lt hlt)

theorem nodup_physical (l : Layout) : (l.pairs.map (·.2)).Nodup :=
  List.Nodup.map_on (fun d hd e he h => l.injective d hd e he h) (List.Nodup.of_map _ l.nodup_virtual)

theorem find?_eq_some_iff {key : Nat × Nat → Nat} {pairs : List (Nat × Nat)} (hnd : (pairs.map key).Nodup) {k : Nat}
    {e : Nat × Nat} : pairs.find? (key · == k) = some e ↔ e ∈ pairs ∧ key e = k := by
  constructor
  · intro h
    exact ⟨List.mem_of_find?_eq_some h, by simpa using List.find?_some h⟩
  · rintro ⟨he, hkey⟩
    cases hf : pairs.find? (key · == k) with
    | none => simpa [hkey] using List.find?_eq_none.mp hf e he
    | some d =>
      have hd : key d = k := by simpa using List.find?_some hf
      rw [eq_of_nodup_map hnd (List.mem_of_find?_eq_some hf) he (hd.trans hkey.symm)]

theorem physical?_eq_some_iff {l : Layout} {v p : Nat} : l.physical? v = some p ↔ (v, p) ∈ l.pairs := by
  simp [physical?, find?_eq_some_iff l.nodup_virtual]

theorem virtual?_eq_some_iff {l : Layout} {v p : Nat} : l.virtual? p = some v ↔ (v, p) ∈ l.pairs := by
  simp [virtual?, find?_eq_some_iff l.nodup_physical]

/-- Whether a layout is a bijection between virtual qubits and positions that all lie below a size. -/
structure BijectiveBelow (l : Layout) (size : Nat) : Prop where
  physical?_iff_virtual? : ∀ v p, l.physical? v = some p ↔ l.virtual? p = some v
  lt : ∀ v p, l.physical? v = some p → v < size ∧ p < size

theorem bijectiveBelow_iff {l : Layout} {size : Nat} :
    l.BijectiveBelow size ↔ ∀ e ∈ l.pairs, e.1 < size ∧ e.2 < size := by
  constructor
  · exact fun h e he => h.lt e.1 e.2 (physical?_eq_some_iff.mpr he)
  · exact fun h => ⟨fun v p => physical?_eq_some_iff.trans virtual?_eq_some_iff.symm,
      fun v p hp => h (v, p) (physical?_eq_some_iff.mp hp)⟩

theorem physical?_congr {l k : Layout} {v : Nat} {f : Nat → Nat}
    (h : ∀ p, (v, p) ∈ k.pairs ↔ ∃ q, (v, q) ∈ l.pairs ∧ f q = p) : k.physical? v = (l.physical? v).map f := by
  ext p
  simp only [Option.map_eq_some_iff, physical?_eq_some_iff, h]

theorem lt_of_mem_trivial {n : Nat} {e : Nat × Nat} (he : e ∈ (trivial n).pairs) : e.1 < n ∧ e.2 < n := by
  obtain ⟨q, hq, rfl⟩ := List.mem_map.mp he
  have hlt := List.mem_range.mp hq
  exact ⟨hlt, hlt⟩

theorem physical?_trivial {n v : Nat} (h : v < n) : (trivial n).physical? v = some v :=
  physical?_eq_some_iff.mpr (List.mem_map.mpr ⟨v, List.mem_range.mpr h, rfl⟩)

theorem mem_swap {l : Layout} {a b v p : Nat} : (v, p) ∈ (l.swap a b).pairs ↔ (v, exchange a b p) ∈ l.pairs := by
  simp only [swap, List.mem_map, Prod.mk.injEq]
  constructor
  · rintro ⟨e, he, rfl, rfl⟩
    rwa [exchange_exchange]
  · exact fun h => ⟨_, h, rfl, exchange_exchange a b p⟩

/-- An exchange of two positions undoes itself. -/
theorem swap_swap (l : Layout) (a b : Nat) : (l.swap a b).swap a b = l :=
  eq_of_mem_iff fun e => by rw [mem_swap, mem_swap, exchange_exchange]

theorem physical?_swap (l : Layout) (a b v : Nat) :
    (l.swap a b).physical? v = (l.physical? v).map (Equiv.swap a b) := by
  refine physical?_congr fun p => ?_
  simp only [swap, List.mem_map, Prod.mk.injEq, exchange_eq_swap]
  constructor
  · rintro ⟨⟨v', q⟩, he, rfl, rfl⟩
    exact ⟨q, he, rfl⟩
  · rintro ⟨q, he, rfl⟩
    exact ⟨(v, q), he, rfl, rfl⟩

theorem mem_ofPairs {pairs : List (Nat × Nat)} (hv : (pairs.map (·.1)).Nodup) (hp : (pairs.map (·.2)).Nodup)
    {e : Nat × Nat} : e ∈ (ofPairs pairs).pairs ↔ e ∈ pairs := by
  rw [ofPairs, dif_pos ((hasConflicts_eq_false_iff pairs).mpr ⟨hv, hp⟩), mem_sorted]

theorem ofPairs_pairs (l : Layout) : ofPairs l.pairs = l :=
  eq_of_mem_iff fun _ => mem_ofPairs l.nodup_virtual l.nodup_physical

theorem mem_or_mem_of_mem_foldl_add {pairs : List (Nat × Nat)} {l : Layout} {e : Nat × Nat}
    (h : e ∈ (pairs.foldl (fun l e => l.add e.1 e.2) l).pairs) : e ∈ l.pairs ∨ e ∈ pairs := by
  induction pairs generalizing l with
  | nil => exact .inl h
  | cons d pairs ih =>
    rcases ih h with h | h
    · rcases mem_add.mp h with rfl | ⟨h, -⟩
      · exact .inr List.mem_cons_self
      · exact .inl h
    · exact .inr (List.mem_cons_of_mem _ h)

/-- The layout of a list of pairs has no others. -/
theorem mem_of_mem_ofPairs {pairs : List (Nat × Nat)} {e : Nat × Nat} (h : e ∈ (ofPairs pairs).pairs) :
    e ∈ pairs := by
  rw [ofPairs_eq_foldl] at h
  exact (mem_or_mem_of_mem_foldl_add h).resolve_left List.not_mem_nil

/-- Moving every position in use by a function that keeps them apart moves every virtual qubit along. -/
theorem physical?_ofPairs_map (l : Layout) (f : Nat → Nat)
    (hf : ∀ d ∈ l.pairs, ∀ e ∈ l.pairs, f d.2 = f e.2 → d.2 = e.2) (v : Nat) :
    (ofPairs (l.pairs.map fun e => (e.1, f e.2))).physical? v = (l.physical? v).map f := by
  have hvirtual : ((l.pairs.map fun e => (e.1, f e.2)).map (·.1)).Nodup := by
    rw [List.map_map]
    exact l.nodup_virtual
  have hphysical : ((l.pairs.map fun e => (e.1, f e.2)).map (·.2)).Nodup := by
    rw [List.map_map]
    refine List.Nodup.map_on ?_ (List.Nodup.of_map _ l.nodup_virtual)
    intro d hd e he h
    exact l.injective d hd e he (hf d hd e he h)
  refine physical?_congr fun p => ?_
  rw [mem_ofPairs hvirtual hphysical]
  simp only [List.mem_map, Prod.mk.injEq]
  constructor
  · rintro ⟨⟨v', q⟩, he, rfl, rfl⟩
    exact ⟨q, he, rfl⟩
  · rintro ⟨q, he, rfl⟩
    exact ⟨(v, q), he, rfl, rfl⟩

end Layout

end CircuitStages
