import CircuitStages.Device.Data
import CircuitStages.Proofs.Device.CouplingMap
import CircuitStages.Proofs.Except
import Mathlib.Data.List.Perm.Subperm
import Mathlib.Data.List.Sort
import Mathlib.Order.Nat

namespace CircuitStages

theorem eq_ok_of_forM {ε α : Type} {f : α → Except ε Unit} {xs : List α} (h : xs.forM f = .ok ()) :
    ∀ x ∈ xs, f x = .ok () := by
  induction xs with
  | nil => simp
  | cons x xs ih =>
    change (f x >>= fun _ => xs.forM f) = .ok () at h
    rw [bind_eq_ok] at h
    obtain ⟨⟨⟩, hx, h⟩ := h
    exact List.forall_mem_cons.mpr ⟨hx, ih h⟩

namespace Target

variable {τ : Type} {t : Target τ} {m : CouplingMap} {name : String} {a b : Nat}

/-- Whether all qubits that the operations of a target list are its own. -/
def IsClosed (t : Target τ) : Prop := ∀ p ∈ t.allProperties, ∀ q ∈ p.qubits, q < t.numQubits

/-- A target that is read uses its own qubits only. -/
theorem isClosed_of_ofParts (h : ofParts t.numQubits t.operations = .ok t) : t.IsClosed := by
  simp only [ofParts, bind_eq_ok] at h
  obtain ⟨_, _, ⟨⟩, hops, -⟩ := h
  intro p hp q hq
  obtain ⟨op, hop, hp⟩ := List.mem_flatMap.mp hp
  have hone := eq_ok_of_forM hops op hop
  split at hone
  next => cases hone
  next hnone =>
    have hin := List.find?_eq_none.mp hnone q (List.mem_flatMap.mpr ⟨p, hp, hq⟩)
    simpa using hin

/-- The links of a target are the pairs that its operations list. -/
theorem couplingMap?_eq_some (h : t.couplingMap? = some m) : ∃ pairs, (CouplingMap.ofEdges pairs).grow t.numQubits = m ∧
    ∀ a b, (a, b) ∈ pairs ↔ ∃ p ∈ t.allProperties, p.qubits = [a, b] := by
  simp only [couplingMap?] at h
  split at h
  · cases h
  · cases h
    refine ⟨_, rfl, fun a b => ?_⟩
    rw [List.mem_filterMap]
    refine exists_congr fun p => and_congr_right fun _ => ?_
    split <;> simp_all

theorem exists_of_hasEdge (h : t.couplingMap? = some m) (hab : m.hasEdge a b) :
    ∃ p ∈ t.allProperties, p.qubits = [a, b] := by
  obtain ⟨pairs, rfl, hpairs⟩ := couplingMap?_eq_some h
  exact (hpairs a b).mp (CouplingMap.mem_of_mem_ofEdges (List.contains_iff_mem.mp hab))

theorem le_numQubits_of_couplingMap? (h : t.couplingMap? = some m) : t.numQubits ≤ m.numQubits := by
  obtain ⟨pairs, rfl, -⟩ := couplingMap?_eq_some h
  exact Nat.le_max_right _ _

theorem IsClosed.numQubits_of_couplingMap? (ht : t.IsClosed) (h : t.couplingMap? = some m) :
    m.numQubits = t.numQubits := by
  obtain ⟨pairs, rfl, hpairs⟩ := couplingMap?_eq_some h
  refine Nat.max_eq_right (CouplingMap.numQubits_addEdges_le (Nat.zero_le _) fun e he => ?_)
  obtain ⟨p, hp, hqubits⟩ := (hpairs e.1 e.2).mp he
  exact ⟨ht p hp e.1 (by simp [hqubits]), ht p hp e.2 (by simp [hqubits])⟩

theorem exists_couplingMap? {p : OperationProperties τ} (hp : p ∈ t.allProperties) (hqubits : p.qubits = [a, b]) :
    ∃ m, t.couplingMap? = some m := by
  simp only [couplingMap?]
  split
  next hnone =>
    have hskip := List.filterMap_eq_nil_iff.mp (List.isEmpty_iff.mp hnone) p hp
    rw [hqubits] at hskip
    cases hskip
  next => exact ⟨_, rfl⟩

/-- Whether a target knows a tuple of some length: every single qubit of the device, and every longer tuple that some
operation lists. -/
def Knows (t : Target τ) (length : Nat) (qubits : List Nat) : Prop :=
  if length = 1 then ∃ q < t.numQubits, qubits = [q]
  else qubits.length = length ∧ ∃ p ∈ t.allProperties, p.qubits = qubits

/-- Whether two tuples are the same as they are, or once both are sorted. -/
def SameTuple (strict : Bool) (qubits others : List Nat) : Prop :=
  if strict then qubits = others else qubits.Perm others

theorem tupleKey_eq_iff {strict : Bool} {qubits others : List Nat} :
    tupleKey strict qubits = tupleKey strict others ↔ SameTuple strict qubits others := by
  cases strict with
  | true => exact Iff.rfl
  | false =>
    have hsorted (xs : List Nat) : xs.mergeSort.Pairwise (· ≤ ·) := List.pairwise_mergeSort' (· ≤ ·) xs
    have hperm (xs : List Nat) : xs.mergeSort.Perm xs := List.mergeSort_perm xs _
    constructor
    · intro h
      have hsame : qubits.mergeSort = others.mergeSort := h
      exact (hperm qubits).symm.trans (hsame ▸ hperm others)
    · intro h
      have hsame : qubits.mergeSort.Perm others.mergeSort := (hperm qubits).trans (h.trans (hperm others).symm)
      exact hsame.eq_of_pairwise (fun a b _ _ => Nat.le_antisymm) (hsorted qubits) (hsorted others)

theorem length_tupleKey (strict : Bool) (qubits : List Nat) : (tupleKey strict qubits).length = qubits.length := by
  cases strict with
  | true => rfl
  | false => exact List.length_mergeSort qubits

/-- The known tuples of a length, as they are compared and each of them once: as many as are counted. -/
theorem exists_known (t : Target τ) (strict : Bool) {length : Nat} (hlength : 1 ≤ length) :
    ∃ known : List (List Nat), known.Nodup ∧ known.length = t.tupleCount strict length ∧
      ∀ key, key ∈ known ↔ ∃ qubits, t.Knows length qubits ∧ tupleKey strict qubits = key := by
  unfold Knows tupleCount
  split
  next =>
    have hsingle (q : Nat) : tupleKey strict [q] = [q] := by cases strict <;> simp [tupleKey]
    refine ⟨(List.range t.numQubits).map fun q => [q], ?_, by simp, ?_⟩
    · exact List.nodup_range.map fun p q hpq => List.singleton_injective hpq
    · intro key
      simp only [List.mem_map, List.mem_range]
      constructor
      · rintro ⟨q, hq, rfl⟩
        exact ⟨[q], ⟨q, hq, rfl⟩, hsingle q⟩
      · rintro ⟨_, ⟨q, hq, rfl⟩, rfl⟩
        exact ⟨q, hq, (hsingle q).symm⟩
  next hlong =>
    refine ⟨(t.tuples strict).filter (·.length == length), (nodup_eraseDups _).filter _, ?_, ?_⟩
    · rw [List.countP_eq_length_filter]
    · intro key
      simp only [tuples, List.mem_filter, List.mem_eraseDups, List.mem_map, decide_eq_true_eq, beq_iff_eq]
      constructor
      · rintro ⟨⟨p, ⟨hp, -⟩, rfl⟩, hkey⟩
        rw [length_tupleKey] at hkey
        exact ⟨p.qubits, ⟨hkey, p, hp, rfl⟩, rfl⟩
      · rintro ⟨_, ⟨hkey, p, hp, rfl⟩, rfl⟩
        exact ⟨⟨p, ⟨hp, by omega⟩, rfl⟩, by rw [length_tupleKey, hkey]⟩

/-- An operation that lists known tuples only lists as many as are known if and only if it lists them all. -/
theorem length_eq_tupleCount_iff {ps : List (OperationProperties τ)} {strict : Bool} {length : Nat}
    (hlength : 1 ≤ length) (hknown : ∀ p ∈ ps, t.Knows length p.qubits) :
    ((ps.map fun p => tupleKey strict p.qubits).eraseDups).length = t.tupleCount strict length ↔
      ∀ qubits, t.Knows length qubits → ∃ p ∈ ps, SameTuple strict p.qubits qubits := by
  obtain ⟨known, hnd, hcount, hmem⟩ := t.exists_known strict hlength
  have hown (key : List Nat) : key ∈ (ps.map fun p => tupleKey strict p.qubits).eraseDups ↔
      ∃ p ∈ ps, tupleKey strict p.qubits = key := by
    rw [List.mem_eraseDups, List.mem_map]
  have hown_nodup := nodup_eraseDups (ps.map fun p => tupleKey strict p.qubits)
  have hsub : (ps.map fun p => tupleKey strict p.qubits).eraseDups ⊆ known := by
    intro key hkey
    obtain ⟨p, hp, rfl⟩ := (hown key).mp hkey
    exact (hmem _).mpr ⟨p.qubits, hknown p hp, rfl⟩
  rw [← hcount]
  constructor
  · intro hsame qubits hqubits
    have hperm := (hown_nodup.subperm hsub).perm_of_length_le hsame.ge
    obtain ⟨p, hp, hkey⟩ := (hown _).mp (hperm.mem_iff.mpr ((hmem _).mpr ⟨qubits, hqubits, rfl⟩))
    exact ⟨p, hp, tupleKey_eq_iff.mp hkey⟩
  · intro hall
    refine ((List.perm_ext_iff_of_nodup hown_nodup hnd).mpr ?_).length_eq
    intro key
    refine ⟨fun hkey => hsub hkey, ?_⟩
    intro hkey
    obtain ⟨qubits, hqubits, rfl⟩ := (hmem key).mp hkey
    obtain ⟨p, hp, hsame⟩ := hall qubits hqubits
    exact (hown _).mpr ⟨p, hp, tupleKey_eq_iff.mpr hsame⟩

/-- The operations that are reported list other numbers of tuples than the target knows of their first one's length. -/
theorem mem_nonGlobalOperations_iff {strict : Bool} : name ∈ t.nonGlobalOperations strict ↔
    ∃ first rest, (name, some (first :: rest)) ∈ t.operations ∧
      (((first :: rest).map fun p => tupleKey strict p.qubits).eraseDups).length ≠
        t.tupleCount strict first.qubits.length := by
  rw [nonGlobalOperations, List.mem_filterMap]
  constructor
  · rintro ⟨⟨found, props⟩, hop, h⟩
    dsimp only at h
    split at h
    next first rest =>
      split at h
      next => cases h
      next hcount =>
        cases h
        exact ⟨first, rest, hop, hcount⟩
    next => cases h
  · rintro ⟨first, rest, hop, hcount⟩
    exact ⟨_, hop, if_neg hcount⟩

/-- An operation that is not missing on any pair: it lists pairs only, as many as the target knows. -/
theorem mem_of_nonGlobalOperations_eq_nil {ps : List (OperationProperties τ)}
    (hnone : t.nonGlobalOperations true = []) (hop : (name, some ps) ∈ t.operations) (hne : ps ≠ [])
    (hpairs : ∀ p ∈ ps, p.qubits.length = 2) {p : OperationProperties τ} (hp : p ∈ t.allProperties)
    (hlength : p.qubits.length = 2) : ∃ r ∈ ps, r.qubits = p.qubits := by
  obtain ⟨first, rest, rfl⟩ := List.exists_cons_of_ne_nil hne
  have hknown : ∀ r ∈ first :: rest, t.Knows 2 r.qubits :=
    fun r hr => ⟨hpairs r hr, r, List.mem_flatMap.mpr ⟨_, hop, hr⟩, rfl⟩
  have hcount : (((first :: rest).map fun p => tupleKey true p.qubits).eraseDups).length = t.tupleCount true 2 := by
    by_contra hne
    rw [← hpairs first List.mem_cons_self] at hne
    have hmem : name ∈ t.nonGlobalOperations true := mem_nonGlobalOperations_iff.mpr ⟨first, rest, hop, hne⟩
    simp [hnone] at hmem
  exact (length_eq_tupleCount_iff (by decide) hknown).mp hcount p.qubits ⟨hlength, p, hp, rfl⟩

/-- On a device linked both ways, an operation that is not missing on any pair is available along every link. -/
theorem supports_of_isLinked {ps : List (OperationProperties τ)} (hnone : t.nonGlobalOperations true = [])
    (hmap : t.couplingMap? = some m) (hsymm : m.isSymmetric) (hlink : m.isLinked a b)
    (hlookup : t.operations.lookup name = some (some ps)) (hne : ps ≠ []) (hpairs : ∀ p ∈ ps, p.qubits.length = 2) :
    t.supports name [a, b] := by
  obtain ⟨before, after, hops, -⟩ := List.lookup_eq_some_iff.mp hlookup
  have hop : (name, some ps) ∈ t.operations := hops ▸ List.mem_append_right _ List.mem_cons_self
  obtain ⟨p, hp, hqubits⟩ := exists_of_hasEdge hmap (CouplingMap.hasEdge_of_isLinked hsymm hlink)
  obtain ⟨r, hr, heq⟩ := mem_of_nonGlobalOperations_eq_nil hnone hop hne hpairs hp (by rw [hqubits]; rfl)
  rw [supports, hlookup]
  exact List.any_eq_true.mpr ⟨r, hr, by rw [heq, hqubits, beq_self_eq_true]⟩

end Target

end CircuitStages
