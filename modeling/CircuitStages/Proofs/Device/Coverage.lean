import CircuitStages.Proofs.Device.Encoding
import Mathlib.Data.List.Permutation

namespace CircuitStages.Target

variable {n : Node} {t : Target Float} {name : String} {ps : List (OperationProperties Float)} {k : Nat}

/-- An operation with tuples of one length lists known tuples only, since it uses the qubits of the device. -/
theorem IsClosed.knows (ht : t.IsClosed) (hop : (name, some ps) ∈ t.operations)
    (hlength : ∀ p ∈ ps, p.qubits.length = k) : ∀ p ∈ ps, t.Knows k p.qubits := by
  intro p hp
  have hall : p ∈ t.allProperties := List.mem_flatMap.mpr ⟨_, hop, hp⟩
  unfold Knows
  split
  next hone =>
    obtain ⟨q, hq⟩ := List.length_eq_one_iff.mp ((hlength p hp).trans hone)
    exact ⟨q, ht p hall q (by simp [hq]), hq⟩
  next => exact ⟨hlength p hp, p, hall, rfl⟩

theorem nonGlobalOperations_sublist (t : Target Float) (strict : Bool) :
    (t.nonGlobalOperations strict).Sublist t.operationNames := by
  rw [nonGlobalOperations, operationNames]
  induction t.operations with
  | nil => exact List.Sublist.slnil
  | cons op ops ih =>
    rw [List.filterMap_cons, List.map_cons]
    split
    next => exact ih.cons op.1
    next found hfound =>
      split at hfound
      next =>
        dsimp only at hfound
        split at hfound
        next => cases hfound
        next =>
          cases hfound
          exact ih.cons_cons op.1
      next => cases hfound

/-- Where every operation that lists tuples lists tuples of one length, at least one qubit long, an operation of a target
that has been read is reported exactly if it lists some tuple and a known tuple of the same length is missing from its
list. Every single qubit of the device is known, and every longer tuple that some operation lists; tuples are compared
in order, or once they are sorted. The names that are reported ascend. -/
theorem reports_missing_tuples (hread : ofNode n = .ok t)
    (hlengths : ∀ name ps, (name, some ps) ∈ t.operations → ∃ k, 1 ≤ k ∧ ∀ p ∈ ps, p.qubits.length = k)
    (strict : Bool) :
    (∀ name, name ∈ t.nonGlobalOperations strict ↔ ∃ ps k, (name, some ps) ∈ t.operations ∧ ps ≠ [] ∧
      (∀ p ∈ ps, p.qubits.length = k) ∧ ∃ qubits, t.Knows k qubits ∧ ∀ p ∈ ps, ¬ SameTuple strict p.qubits qubits) ∧
    (t.nonGlobalOperations strict).Pairwise (· < ·) := by
  obtain ⟨hclosed, hascending⟩ := loaded_of_ofNode hread
  -- Of an operation with tuples of one length, the numbers differ exactly if a tuple is missing.
  have hdiffer {name : String} {ps : List (OperationProperties Float)} {k : Nat} (hk : 1 ≤ k)
      (hop : (name, some ps) ∈ t.operations) (hlength : ∀ p ∈ ps, p.qubits.length = k) :
      ((ps.map fun p => tupleKey strict p.qubits).eraseDups).length ≠ t.tupleCount strict k ↔
        ∃ qubits, t.Knows k qubits ∧ ∀ p ∈ ps, ¬ SameTuple strict p.qubits qubits := by
    rw [Ne, length_eq_tupleCount_iff hk (hclosed.knows hop hlength)]
    push Not
    rfl
  constructor
  · intro name
    rw [mem_nonGlobalOperations_iff]
    constructor
    · rintro ⟨first, rest, hop, hcount⟩
      obtain ⟨k, hk, hlength⟩ := hlengths name _ hop
      rw [hlength first List.mem_cons_self] at hcount
      exact ⟨_, k, hop, List.cons_ne_nil _ _, hlength, (hdiffer hk hop hlength).mp hcount⟩
    · rintro ⟨ps, k, hop, hne, hlength, hmissing⟩
      obtain ⟨first, rest, rfl⟩ := List.exists_cons_of_ne_nil hne
      obtain ⟨k', hk', hlength'⟩ := hlengths name _ hop
      obtain rfl : k' = k := (hlength' first List.mem_cons_self).symm.trans (hlength first List.mem_cons_self)
      refine ⟨first, rest, hop, ?_⟩
      rw [hlength first List.mem_cons_self]
      exact (hdiffer hk' hop hlength).mpr hmissing
  · have hnames : t.operationNames.Pairwise (· < ·) :=
      List.pairwise_map.mpr (hascending.imp of_decide_eq_true)
    exact hnames.sublist (t.nonGlobalOperations_sublist strict)

/-- A device with three qubits: `cx` is available both ways on two links, one of them listed twice, `ecr` on both in one
direction only, and `x` on two qubits. -/
def partial3 : Target Float :=
  let on (qubits : List Nat) : OperationProperties Float := ⟨qubits, none, none⟩
  ⟨3, [("cx", some [on [0, 1], on [1, 0], on [1, 2], on [2, 1], on [0, 1]]), ("ecr", some [on [0, 1], on [2, 1]]),
    ("rz", none), ("x", some [on [2], on [0]])]⟩

theorem reports_missing_tuples_partial : ofNode partial3.toValue.toNode = .ok partial3 ∧
    (∀ name ps, (name, some ps) ∈ partial3.operations → ∃ k, 1 ≤ k ∧ ∀ p ∈ ps, p.qubits.length = k) ∧
    partial3.nonGlobalOperations true = ["ecr", "x"] ∧
    (∃ ps k, ("ecr", some ps) ∈ partial3.operations ∧ ps ≠ [] ∧ (∀ p ∈ ps, p.qubits.length = k) ∧
      ∃ qubits, partial3.Knows k qubits ∧ ∀ p ∈ ps, ¬ SameTuple true p.qubits qubits) ∧
    partial3.nonGlobalOperations false = ["x"] ∧
    ∀ ps, ("ecr", some ps) ∈ partial3.operations → ps ≠ [] → (∀ p ∈ ps, p.qubits.length = 2) →
      ∀ qubits, partial3.Knows 2 qubits → ∃ p ∈ ps, SameTuple false p.qubits qubits := by
  have hread : ofNode partial3.toValue.toNode = .ok partial3 := by rfl
  have hlengths : ∀ name ps, (name, some ps) ∈ partial3.operations →
      ∃ k, 1 ≤ k ∧ ∀ p ∈ ps, p.qubits.length = k := by
    intro name ps hop
    simp only [partial3, List.mem_cons, Prod.mk.injEq, Option.some.injEq, reduceCtorEq, and_false, List.not_mem_nil,
      or_false, false_or] at hop
    rcases hop with ⟨-, rfl⟩ | ⟨-, rfl⟩ | ⟨-, rfl⟩
    · exact ⟨2, by decide, by simp⟩
    · exact ⟨2, by decide, by simp⟩
    · exact ⟨1, by decide, by simp⟩
  have hstrict : partial3.nonGlobalOperations true = ["ecr", "x"] := by decide +kernel
  have hloose : partial3.nonGlobalOperations false = ["x"] := by cbv
  obtain ⟨hmem, -⟩ := reports_missing_tuples hread hlengths true
  obtain ⟨hmemLoose, -⟩ := reports_missing_tuples hread hlengths false
  refine ⟨hread, hlengths, hstrict, (hmem "ecr").mp (by simp [hstrict]), hloose, ?_⟩
  intro ps hop hne hpairs qubits hknown
  by_contra hmissing
  push Not at hmissing
  have hreported : "ecr" ∈ partial3.nonGlobalOperations false :=
    (hmemLoose "ecr").mpr ⟨ps, 2, hop, hne, hpairs, qubits, hknown, hmissing⟩
  simp [hloose] at hreported

end CircuitStages.Target
