import CircuitStages.Device.CouplingMap
import CircuitStages.Proofs.Ascending
import Mathlib.Tactic.SplitIfs

namespace CircuitStages

theorem linkBefore_total (a b : Nat × Nat) : linkBefore a b ∨ a = b ∨ linkBefore b a := by
  simp only [linkBefore, Prod.ext_iff, Bool.or_eq_true, Bool.and_eq_true, decide_eq_true_eq, beq_iff_eq]
  omega

theorem linkBefore_asymm {a b : Nat × Nat} (hab : linkBefore a b) : ¬ linkBefore b a := by
  simp only [linkBefore, Bool.or_eq_true, Bool.and_eq_true, decide_eq_true_eq, beq_iff_eq] at *
  omega

namespace CouplingMap

variable {m : CouplingMap} {a b : Nat} {edges : List (Nat × Nat)}

theorem hasEdge_iff : m.hasEdge a b ↔ (a, b) ∈ m.edges := List.contains_iff_mem

theorem isLinked_iff : m.isLinked a b ↔ (a, b) ∈ m.edges ∨ (b, a) ∈ m.edges := by
  rw [isLinked, Bool.or_eq_true, hasEdge_iff, hasEdge_iff]

theorem isLinked_comm (m : CouplingMap) (a b : Nat) : m.isLinked a b = m.isLinked b a := by
  simp only [isLinked, Bool.or_comm]

theorem hasEdge_of_isLinked (hsymm : m.isSymmetric) (h : m.isLinked a b) : m.hasEdge a b := by
  rcases Bool.or_eq_true_iff.mp h with h | h
  · exact h
  · exact List.all_eq_true.mp hsymm (b, a) (hasEdge_iff.mp h)

theorem lt_of_isLinked (h : m.isLinked a b) : a < m.numQubits ∧ b < m.numQubits := by
  rcases isLinked_iff.mp h with h | h
  · exact m.inRange _ h
  · exact (m.inRange _ h).symm

theorem mem_neighbors {p q : Nat} : q ∈ m.neighbors p ↔ m.isLinked p q ∧ p ≠ q := by
  simp only [neighbors, mem_ascendingNats, List.mem_filterMap, isLinked_iff]
  constructor
  · rintro ⟨⟨a, b⟩, he, h⟩
    dsimp only at h
    split_ifs at h with h1 h2
    · obtain ⟨rfl, hb⟩ := h1
      cases h
      exact ⟨.inl he, Ne.symm hb⟩
    · obtain ⟨rfl, ha⟩ := h2
      cases h
      exact ⟨.inr he, Ne.symm ha⟩
  · rintro ⟨h | h, hne⟩
    · exact ⟨(p, q), h, by simp [Ne.symm hne]⟩
    · exact ⟨(q, p), h, by simp [Ne.symm hne]⟩

theorem mem_addEdge {e : Nat × Nat} : e ∈ (m.addEdge a b).edges ↔ e = (a, b) ∨ e ∈ m.edges := by
  rw [addEdge, mem_insertBy]
  have := linkBefore_total e (a, b)
  tauto

/-- Adding links adds these links and no others. -/
theorem mem_addEdges {e : Nat × Nat} : e ∈ (m.addEdges edges).edges ↔ e ∈ m.edges ∨ e ∈ edges := by
  induction edges generalizing m with
  | nil => simp [addEdges]
  | cons d edges ih =>
    rw [addEdges, List.foldl_cons, ← addEdges, ih, mem_addEdge, List.mem_cons]
    tauto

/-- Maps with the same qubits and links are equal. -/
theorem eq_of_mem_iff {m' : CouplingMap} (hsize : m.numQubits = m'.numQubits)
    (h : ∀ e, e ∈ m.edges ↔ e ∈ m'.edges) : m = m' := by
  have hnd (m : CouplingMap) : m.edges.Nodup :=
    m.ascending.imp fun {a b} hab (heq : a = b) => linkBefore_asymm hab (heq ▸ hab)
  have hperm := (List.perm_ext_iff_of_nodup (hnd m) (hnd m')).mpr h
  have hedges := hperm.eq_of_pairwise (fun a b _ _ hab hba => absurd hba (linkBefore_asymm hab)) m.ascending
    m'.ascending
  cases m
  cases m'
  cases hsize
  cases hedges
  rfl

theorem mem_of_mem_ofEdges {e : Nat × Nat} (h : e ∈ (ofEdges edges).edges) : e ∈ edges :=
  (mem_addEdges.mp h).resolve_left List.not_mem_nil

theorem le_numQubits_addEdges (m : CouplingMap) (edges : List (Nat × Nat)) :
    m.numQubits ≤ (m.addEdges edges).numQubits := by
  induction edges generalizing m with
  | nil => exact Nat.le_refl _
  | cons e edges ih => exact Nat.le_trans (Nat.le_max_left _ _) (ih (m.addEdge e.1 e.2))

theorem numQubits_addEdges_le {n : Nat} (hm : m.numQubits ≤ n) (h : ∀ e ∈ edges, e.1 < n ∧ e.2 < n) :
    (m.addEdges edges).numQubits ≤ n := by
  induction edges generalizing m with
  | nil => exact hm
  | cons e edges ih =>
    obtain ⟨⟨hfst, hsnd⟩, hrest⟩ := List.forall_mem_cons.mp h
    refine ih ?_ hrest
    change max m.numQubits (max e.1 e.2 + 1) ≤ n
    omega

/-- The links that lack a reverse, turned round. -/
theorem mem_symmetrize {e : Nat × Nat} : e ∈ m.symmetrize.edges ↔ e ∈ m.edges ∨ (e.2, e.1) ∈ m.edges := by
  rw [symmetrize, mem_addEdges, List.mem_map]
  refine ⟨Or.imp_right ?_, fun h => ?_⟩
  · rintro ⟨d, hd, rfl⟩
    exact List.mem_of_mem_filter hd
  · by_cases he : e ∈ m.edges
    · exact .inl he
    · refine .inr ⟨(e.2, e.1), List.mem_filter.mpr ⟨h.resolve_left he, ?_⟩, rfl⟩
      rw [Bool.not_eq_true', Bool.eq_false_iff, ne_eq, hasEdge_iff]
      exact he

theorem isLinked_symmetrize (m : CouplingMap) (a b : Nat) : m.symmetrize.isLinked a b = m.isLinked a b := by
  rw [Bool.eq_iff_iff, isLinked_iff, isLinked_iff, mem_symmetrize, mem_symmetrize]
  tauto

theorem numQubits_symmetrize (m : CouplingMap) : m.symmetrize.numQubits = m.numQubits := by
  refine Nat.le_antisymm (numQubits_addEdges_le (Nat.le_refl _) fun e he => ?_) (m.le_numQubits_addEdges _)
  obtain ⟨d, hd, rfl⟩ := List.mem_map.mp he
  exact (m.inRange d (List.mem_of_mem_filter hd)).symm

/-- A map comes about from its links, grown to its qubits. -/
theorem grow_ofEdges (m : CouplingMap) : (ofEdges m.edges).grow m.numQubits = m := by
  have hsize : (ofEdges m.edges).numQubits ≤ m.numQubits := numQubits_addEdges_le (Nat.zero_le _) m.inRange
  refine eq_of_mem_iff (Nat.max_eq_right hsize) fun e => ?_
  have hlinks : e ∈ (ofEdges m.edges).edges ↔ e ∈ (isolated 0).edges ∨ e ∈ m.edges := mem_addEdges
  exact hlinks.trans (or_iff_right List.not_mem_nil)

end CouplingMap

end CircuitStages
