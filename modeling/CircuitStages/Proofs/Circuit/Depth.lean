import CircuitStages.Circuit.Basic
import Mathlib.Order.MinMax

namespace CircuitStages

variable {α : Type} {reached reached' : Nat → Nat} {qs : List Nat} {is js : List (Instruction α)}

theorem foldl_max_le_iff {β : Type} [LinearOrder β] {xs : List β} {first bound : β} :
    xs.foldl max first ≤ bound ↔ first ≤ bound ∧ ∀ x ∈ xs, x ≤ bound := by
  induction xs generalizing first with
  | nil => simp
  | cons x xs ih => rw [List.foldl_cons, ih, max_le_iff, List.forall_mem_cons, and_assoc]

theorem le_foldl_max {xs : List Nat} {first x : Nat} (hx : x ∈ xs) : x ≤ xs.foldl max first :=
  (foldl_max_le_iff.mp (Nat.le_refl _)).2 x hx

/-- The layer of an instruction on these qubits. -/
def nextLayer (reached : Nat → Nat) (qs : List Nat) : Nat :=
  if qs.isEmpty then 0 else (qs.map reached).foldl max 0 + 1

/-- The last layer on each qubit behind an instruction on these qubits. -/
def layersAfter (reached : Nat → Nat) (qs : List Nat) : Nat → Nat :=
  fun q => if qs.contains q then nextLayer reached qs else reached q

theorem layersFrom_cons (reached : Nat → Nat) (i : Instruction α) (is : List (Instruction α)) :
    layersFrom reached (i :: is) = nextLayer reached i.qubits :: layersFrom (layersAfter reached i.qubits) is := rfl

theorem nextLayer_mono (h : ∀ q, reached q ≤ reached' q) (qs : List Nat) :
    nextLayer reached qs ≤ nextLayer reached' qs := by
  unfold nextLayer
  split
  · exact Nat.le_refl 0
  · apply Nat.succ_le_succ
    apply foldl_max_le_iff.mpr
    refine ⟨Nat.zero_le _, ?_⟩
    intro x hx
    obtain ⟨q, hq, rfl⟩ := List.mem_map.mp hx
    exact Nat.le_trans (h q) (le_foldl_max (List.mem_map_of_mem hq))

theorem layersAfter_mono (h : ∀ q, reached q ≤ reached' q) (qs : List Nat) (q : Nat) :
    layersAfter reached qs q ≤ layersAfter reached' qs q := by
  unfold layersAfter
  split
  · exact nextLayer_mono h qs
  · exact h q

/-- Instructions only add layers. -/
theorem le_layersAfter (reached : Nat → Nat) (qs : List Nat) (q : Nat) : reached q ≤ layersAfter reached qs q := by
  unfold layersAfter
  split
  next hq =>
    have hmem : q ∈ qs := List.contains_iff_mem.mp hq
    have hne : qs.isEmpty = false := List.isEmpty_eq_false_iff.mpr (List.ne_nil_of_mem hmem)
    have hle : reached q ≤ (qs.map reached).foldl max 0 := le_foldl_max (List.mem_map_of_mem hmem)
    simp only [nextLayer, hne, Bool.false_eq_true, if_false]
    omega
  next => exact Nat.le_refl _

/-- Leaving instructions out, where qubits have reached no more than before, leads to no later layer. -/
theorem layersFrom_le_of_sublist {bound : Nat} (hsub : (is.map (·.qubits)).Sublist (js.map (·.qubits)))
    (hle : ∀ q, reached q ≤ reached' q) (hbound : ∀ layer ∈ layersFrom reached' js, layer ≤ bound) :
    ∀ layer ∈ layersFrom reached is, layer ≤ bound := by
  induction js generalizing is reached reached' with
  | nil =>
    have hnil : is = [] := by simpa using hsub
    simp [hnil, layersFrom]
  | cons j js ih =>
    rw [layersFrom_cons, List.forall_mem_cons] at hbound
    obtain ⟨hfirst, hrest⟩ := hbound
    rw [List.map_cons, List.sublist_cons_iff] at hsub
    rcases hsub with hsub | ⟨rest, htail, hsub⟩
    · -- `j` is left out: it would only have added layers.
      have hless : ∀ q, reached q ≤ layersAfter reached' j.qubits q :=
        fun q => Nat.le_trans (hle q) (le_layersAfter reached' j.qubits q)
      exact ih hsub hless hrest
    · obtain ⟨i, is, rfl, hqubits, rfl⟩ := List.map_eq_cons_iff.mp htail
      rw [layersFrom_cons, List.forall_mem_cons, hqubits]
      constructor
      · exact Nat.le_trans (nextLayer_mono hle j.qubits) hfirst
      · exact ih hsub (layersAfter_mono hle j.qubits) hrest

/-- A circuit is no deeper than one that has the same qubits in use and more instructions in between. -/
theorem Circuit.depth_le_of_sublist {c d : Circuit α}
    (hsub : (c.instructions.map (·.qubits)).Sublist (d.instructions.map (·.qubits))) : c.depth ≤ d.depth := by
  have hbound : ∀ layer ∈ layersFrom (fun _ => 0) d.instructions, layer ≤ d.depth := fun _ h => le_foldl_max h
  exact foldl_max_le_iff.mpr ⟨Nat.zero_le _, layersFrom_le_of_sublist hsub (fun _ => Nat.le_refl 0) hbound⟩

end CircuitStages
