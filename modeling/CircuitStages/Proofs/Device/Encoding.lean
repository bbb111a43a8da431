import CircuitStages.Proofs.Circuit.Depth
import CircuitStages.Proofs.Data.Encoding
import CircuitStages.Proofs.Device.Target
import Mathlib.Data.UInt

namespace CircuitStages

section Checks

variable {α : Type} {x : Except ConfigError α}

theorem rejectDevice_eq_ok_iff {a : α} : rejectDevice x = .ok a ↔ x = .ok a := by
  cases x with
  | error e => exact iff_of_false nofun nofun
  | ok b => exact ⟨fun h => congrArg _ (Except.ok.inj h), fun h => congrArg _ (Except.ok.inj h)⟩

theorem checkDeviceSize_eq_ok_iff {n : Nat} : checkDeviceSize n = .ok () ↔ n ≤ maxDeviceQubits := by
  rw [checkDeviceSize]
  split
  next h => exact iff_of_false nofun (Nat.not_le.mpr h)
  next h => exact iff_of_true rfl (Nat.le_of_not_lt h)

theorem checkDeviceSize_eq_error {n : Nat} (h : maxDeviceQubits < n) :
    checkDeviceSize n = .error (.deviceTooLarge n maxDeviceQubits) := if_pos h

end Checks

/-- What a document says about a coupling map, before its size is checked. -/
structure CouplingRecord where
  numQubits : Nat
  edges : List (Nat × Nat)

namespace CouplingRecord

variable {r : CouplingRecord} {n : Node}

def ofNode (n : Node) : Decoded CouplingRecord := do
  let fields ← n.asRecord ["num_qubits", "edges"]
  let numQubits ← defaultedField fields "num_qubits" Node.asNat 0
  let edges ← requiredField fields "edges" (Node.asList (Node.asPair Node.asNat Node.asNat))
  pure ⟨numQubits, edges⟩

def toValue (r : CouplingRecord) : Value :=
  .object [("edges", .ofPairs r.edges), ("num_qubits", .ofNat r.numQubits)]

/-- Whether all numbers are indices. -/
structure InRange (r : CouplingRecord) : Prop where
  numQubits : r.numQubits ≤ Node.maxIndex
  edges : ∀ e ∈ r.edges, e.1 ≤ Node.maxIndex ∧ e.2 ≤ Node.maxIndex

theorem asPair_eq_ok {n : Node} {e : Nat × Nat} (h : Node.asPair Node.asNat Node.asNat n = .ok e) :
    e.1 ≤ Node.maxIndex ∧ e.2 ≤ Node.maxIndex := by
  rw [Node.asPair.eq_def] at h
  split at h
  next =>
    simp only [bind_eq_ok, pure_eq_ok] at h
    obtain ⟨a, ha, b, hb, rfl⟩ := h
    exact ⟨Node.le_of_asNat ha, Node.le_of_asNat hb⟩
  next => cases h

theorem inRange_of_ofNode (h : ofNode n = .ok r) : r.InRange := by
  simp only [ofNode, bind_eq_ok, pure_eq_ok] at h
  obtain ⟨fields, -, k, hk, edges, hedges, rfl⟩ := h
  constructor
  case numQubits =>
    rw [defaultedField] at hk
    split at hk
    next => exact Node.le_of_asNat hk
    next =>
      cases hk
      exact Nat.zero_le _
  case edges =>
    intro e he
    rw [requiredField] at hedges
    split at hedges
    next items _ =>
      rw [Node.asList.eq_def] at hedges
      split at hedges
      next =>
        obtain ⟨item, -, hitem⟩ := exists_of_mem_mapM hedges he
        exact asPair_eq_ok hitem
      next =>
        cases hedges
        simp at he
      next => cases hedges
    next => cases hedges

/-- Whatever lies in range can be written down. -/
theorem ofNode_toNode (h : r.InRange) : ofNode r.toValue.toNode = .ok r := by
  let fields : List (String × Node) :=
    [("edges", (Value.ofPairs r.edges).toNode), ("num_qubits", (Value.ofNat r.numQubits).toNode)]
  have hfields : r.toValue.toNode.asRecord ["num_qubits", "edges"] = .ok fields := rfl
  have hnumQubits : defaultedField fields "num_qubits" Node.asNat 0 = .ok r.numQubits := Node.asNat_toNode h.numQubits
  have hedges : requiredField fields "edges" (Node.asList (Node.asPair Node.asNat Node.asNat)) = .ok r.edges :=
    Node.asPairs_toNode h.edges
  simp only [ofNode, bind_eq_ok]
  exact ⟨fields, hfields, r.numQubits, hnumQubits, r.edges, hedges, rfl⟩

/-- The size of the device that is asked for: enough for the number of qubits and for every link. Indices are words of
32 bits, and sizes words of 64. -/
def requested (r : CouplingRecord) : UInt64 :=
  let sizes := r.edges.map fun e => (UInt32.ofNat (max e.1 e.2)).toUInt64 + 1
  max (sizes.foldl max 0) (UInt32.ofNat r.numQubits).toUInt64

/-- Whether a device beyond the limit is asked for. -/
def TooLarge (r : CouplingRecord) : Prop :=
  maxDeviceQubits < r.numQubits ∨ ∃ e ∈ r.edges, maxDeviceQubits < e.1 + 1 ∨ maxDeviceQubits < e.2 + 1

theorem toNat_foldl_max (sizes : List UInt64) (first : UInt64) :
    (sizes.foldl max first).toNat = (sizes.map UInt64.toNat).foldl max first.toNat := by
  induction sizes generalizing first with
  | nil => rfl
  | cons size sizes ih => rw [List.foldl_cons, ih, UInt64.toNat_max, List.map_cons, List.foldl_cons]

/-- In words of 64 bits no size wraps around. -/
theorem toNat_requested (h : r.InRange) :
    r.requested.toNat = (r.edges.map fun e => max e.1 e.2 + 1).foldl max r.numQubits := by
  have hword {k : Nat} (hk : k ≤ Node.maxIndex) : (UInt32.ofNat k).toUInt64.toNat = k := by
    have hlt : k < 2 ^ 32 := Nat.lt_of_le_sub_one (by decide) hk
    rw [UInt32.toNat_toUInt64, UInt32.toNat_ofNat', Nat.mod_eq_of_lt hlt]
  have hsizes : (r.edges.map fun e => (UInt32.ofNat (max e.1 e.2)).toUInt64 + 1).map UInt64.toNat =
      r.edges.map fun e => max e.1 e.2 + 1 := by
    rw [List.map_map]
    refine List.map_congr_left fun e he => ?_
    have hle : max e.1 e.2 ≤ Node.maxIndex := max_le (h.edges e he).1 (h.edges e he).2
    have hlt : max e.1 e.2 + 1 < 2 ^ 64 := Nat.lt_of_le_of_lt (Nat.succ_le_succ hle) (by decide)
    rw [Function.comp_apply, UInt64.toNat_add, hword hle]
    exact Nat.mod_eq_of_lt hlt
  have hrequested : r.requested.toNat = max ((r.edges.map fun e => max e.1 e.2 + 1).foldl max 0) r.numQubits := by
    rw [requested, UInt64.toNat_max, toNat_foldl_max, hsizes, hword h.numQubits]
    rfl
  rw [hrequested]
  refine eq_of_forall_ge_iff fun bound => ?_
  rw [max_le_iff, foldl_max_le_iff, foldl_max_le_iff]
  constructor
  · rintro ⟨⟨-, hedges⟩, hsize⟩
    exact ⟨hsize, hedges⟩
  · rintro ⟨hsize, hedges⟩
    exact ⟨⟨Nat.zero_le _, hedges⟩, hsize⟩

/-- The size asked for is beyond the limit if and only if a number of the document asks for such a size. -/
theorem tooLarge_iff :
    r.TooLarge ↔ ¬ (r.edges.map fun e => max e.1 e.2 + 1).foldl max r.numQubits ≤ maxDeviceQubits := by
  rw [foldl_max_le_iff, TooLarge]
  simp only [List.forall_mem_map]
  constructor
  · rintro (hsize | ⟨e, he, hlarge⟩) ⟨hfits, hall⟩
    · omega
    · have hle := hall e he
      omega
  · intro hnot
    by_contra hsmall
    rw [not_or, not_exists] at hsmall
    refine hnot ⟨by omega, fun e he => ?_⟩
    have hedge := hsmall.2 e
    simp only [he, true_and, not_or] at hedge
    omega

end CouplingRecord

namespace Target

variable {t : Target Float} {n : Node}

theorem pairwise_insertEntry {ν : Type} {key : String} {value : ν} {entries : List (String × ν)}
    (h : entries.Pairwise fun a b => textBefore a.1 b.1) :
    (insertEntry key value entries).Pairwise fun a b => textBefore a.1 b.1 :=
  pairwise_insertBy (fun a b c => textBefore_trans a.1 b.1 c.1) (key, value) h

/-- Operations are read into ascending order. -/
theorem pairwise_operationsOfNode {operations : List (String × Option (List (OperationProperties Float)))}
    (h : operationsOfNode n = .ok operations) : operations.Pairwise fun a b => textBefore a.1 b.1 := by
  rw [operationsOfNode, bind_eq_ok] at h
  obtain ⟨entries, -, h⟩ := h
  have loop : ∀ (entries : List (String × Node)) (found : List (String × Option (List (OperationProperties Float)))),
      (found.Pairwise fun a b => textBefore a.1 b.1) → (entries.foldlM (fun found entry => do
        let properties ← entry.2.asOption (Node.asList OperationProperties.ofNode)
        pure (insertEntry entry.1 properties found)) found) = .ok operations →
      operations.Pairwise fun a b => textBefore a.1 b.1 := by
    intro entries
    induction entries with
    | nil =>
      intro found hfound h
      rw [List.foldlM_nil, pure_eq_ok] at h
      exact h ▸ hfound
    | cons entry entries ih =>
      intro found hfound h
      simp only [List.foldlM_cons, bind_eq_ok, pure_eq_ok] at h
      obtain ⟨_, ⟨properties, -, rfl⟩, hrest⟩ := h
      exact ih _ (pairwise_insertEntry hfound) hrest
  exact loop entries [] List.Pairwise.nil h

/-- A target that is read uses its own qubits only, and lists its operations in ascending order. -/
theorem loaded_of_ofNode (h : ofNode n = .ok t) :
    t.IsClosed ∧ t.operations.Pairwise fun a b => textBefore a.1 b.1 := by
  simp only [ofNode, bind_eq_ok, rejectDevice_eq_ok_iff] at h
  obtain ⟨fields, -, numQubits, -, operations, hoperations, hparts⟩ := h
  have hparts' := hparts
  simp only [ofParts, bind_eq_ok, pure_eq_ok] at hparts'
  obtain ⟨-, -, -, -, rfl⟩ := hparts'
  refine ⟨isClosed_of_ofParts hparts, ?_⟩
  rw [defaultedField] at hoperations
  split at hoperations
  next => exact pairwise_operationsOfNode hoperations
  next =>
    cases hoperations
    exact List.Pairwise.nil

end Target

end CircuitStages
