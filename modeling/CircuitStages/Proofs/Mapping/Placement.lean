import CircuitStages.Mapping.Placement
import CircuitStages.Proofs.Circuit.Checks
import CircuitStages.Proofs.Circuit.Layout
import CircuitStages.Proofs.Device.Trails
import Mathlib.Data.List.Perm.Subperm

namespace CircuitStages

theorem nodup_absentBelow (n : Nat) (xs : List Nat) : (absentBelow n xs).Nodup :=
  (pairwise_absentBelow n xs).imp fun hlt => Nat.ne_of_lt hlt

theorem le_length_absentBelow_add (n : Nat) (xs : List Nat) : n ≤ (absentBelow n xs).length + xs.length := by
  have hsub : List.range n ⊆ absentBelow n xs ++ xs := by
    intro k hk
    by_cases hin : k ∈ xs
    · exact List.mem_append_right _ hin
    · exact List.mem_append_left _ (mem_absentBelow.mpr ⟨List.mem_range.mp hk, hin⟩)
  have hle := (List.nodup_range.subperm hsub).length_le
  rwa [List.length_range, List.length_append] at hle

theorem length_absentBelow_add_le {n : Nat} {xs : List Nat} (hnd : xs.Nodup) (hlt : ∀ x ∈ xs, x < n) :
    (absentBelow n xs).length + xs.length ≤ n := by
  have happart : (absentBelow n xs ++ xs).Nodup := by
    refine List.nodup_append.mpr ⟨nodup_absentBelow n xs, hnd, ?_⟩
    intro x hx y hy he
    exact (mem_absentBelow.mp hx).2 (he ▸ hy)
  have hsub : absentBelow n xs ++ xs ⊆ List.range n := by
    intro k hk
    rcases List.mem_append.mp hk with hk | hk
    · exact List.mem_range.mpr (mem_absentBelow.mp hk).1
    · exact List.mem_range.mpr (hlt k hk)
  have hle := (happart.subperm hsub).length_le
  rwa [List.length_range, List.length_append] at hle

theorem sublist_map_snd_zip (xs ys : List Nat) : ((xs.zip ys).map (·.2)).Sublist ys := by
  induction xs generalizing ys with
  | nil => exact List.nil_sublist _
  | cons x xs ih =>
    cases ys with
    | nil => exact List.Sublist.refl _
    | cons y ys => exact (ih ys).cons_cons y

namespace Layout

variable (l : Layout) (n : Nat)

/-- The pairs of a layout that place a virtual qubit below `n`. -/
def below : List (Nat × Nat) := l.pairs.filter (·.1 < n)

/-- The virtual qubits below `n` that a layout leaves over. -/
def unplaced : List Nat := absentBelow n ((l.below n).map (·.1))

/-- The positions below `n` that no virtual qubit below `n` takes up. -/
def free : List Nat := absentBelow n ((l.below n).map (·.2))

theorem nodup_below_virtual : ((l.below n).map (·.1)).Nodup :=
  l.nodup_virtual.sublist (List.filter_sublist.map _)

theorem nodup_below_physical : ((l.below n).map (·.2)).Nodup :=
  l.nodup_physical.sublist (List.filter_sublist.map _)

/-- There are enough free positions for the virtual qubits left over. -/
theorem length_unplaced_le : (l.unplaced n).length ≤ (l.free n).length := by
  have hlt : ∀ x ∈ (l.below n).map (·.1), x < n := by
    intro x hx
    obtain ⟨e, he, rfl⟩ := List.mem_map.mp hx
    simpa using (List.mem_filter.mp he).2
  have hunplaced : (l.unplaced n).length + ((l.below n).map (·.1)).length ≤ n :=
    length_absentBelow_add_le (l.nodup_below_virtual n) hlt
  have hfree : n ≤ (l.free n).length + ((l.below n).map (·.2)).length := le_length_absentBelow_add n _
  simp only [List.length_map] at hunplaced hfree
  omega

end Layout

section Completion

variable (l : Layout) (n : Nat)

theorem mem_completeLayout {e : Nat × Nat} :
    e ∈ (completeLayout l n).pairs ↔ e ∈ l.below n ∨ e ∈ (l.unplaced n).zip (l.free n) := by
  have hpairs : completeLayout l n = .ofPairs (l.below n ++ (l.unplaced n).zip (l.free n)) := rfl
  rw [hpairs, Layout.mem_ofPairs, List.mem_append]
  · rw [List.map_append, List.map_fst_zip (l.length_unplaced_le n)]
    refine List.nodup_append.mpr ⟨l.nodup_below_virtual n, nodup_absentBelow _ _, ?_⟩
    rintro x hx y hy rfl
    exact (mem_absentBelow.mp hy).2 hx
  · rw [List.map_append]
    refine List.nodup_append.mpr ⟨l.nodup_below_physical n, ?_, ?_⟩
    · exact (nodup_absentBelow _ _).sublist (sublist_map_snd_zip _ _)
    · rintro x hx y hy rfl
      exact (mem_absentBelow.mp ((sublist_map_snd_zip _ _).subset hy)).2 hx

/-- Completion leaves no virtual qubit without a position. -/
theorem exists_mem_completeLayout {v : Nat} (hv : v < n) : ∃ p, (v, p) ∈ (completeLayout l n).pairs := by
  simp only [mem_completeLayout]
  by_cases hgiven : v ∈ (l.below n).map (·.1)
  · obtain ⟨e, he, rfl⟩ := List.mem_map.mp hgiven
    exact ⟨e.2, .inl he⟩
  · have hmem : v ∈ ((l.unplaced n).zip (l.free n)).map Prod.fst := by
      rw [List.map_fst_zip (l.length_unplaced_le n)]
      exact mem_absentBelow.mpr ⟨hv, hgiven⟩
    obtain ⟨e, he, rfl⟩ := List.mem_map.mp hmem
    exact ⟨e.2, .inr he⟩

theorem lt_placedSize_of_mem {numPhysical : Nat} {e : Nat × Nat} (he : e ∈ l.pairs) :
    e.2 < placedSize l n numPhysical := by
  have hmem : e.2 ∈ l.pairs.map (·.2) := List.mem_map_of_mem he
  obtain ⟨p, hp⟩ := Option.isSome_iff_exists.mp (List.isSome_max?_of_mem hmem)
  have hle : e.2 ≤ p := (List.max?_eq_some_iff.mp hp).2 _ hmem
  have hsize : p + 1 ≤ placedSize l n numPhysical := by
    rw [placedSize, Layout.maxPhysical?, hp]
    exact Nat.le_max_right _ _
  omega

theorem placedSize_eq {numPhysical : Nat} (hfit : n ≤ numPhysical) (hlt : ∀ e ∈ l.pairs, e.2 < numPhysical) :
    placedSize l n numPhysical = numPhysical := by
  rw [placedSize, Nat.max_eq_left hfit]
  cases hp : l.maxPhysical? with
  | none => exact Nat.max_eq_left (Nat.zero_le _)
  | some p =>
    obtain ⟨e, he, rfl⟩ := List.mem_map.mp (List.max?_mem hp)
    exact Nat.max_eq_left (hlt e he)

theorem lt_of_mem_completeLayout (numPhysical : Nat) {e : Nat × Nat} (he : e ∈ (completeLayout l n).pairs) :
    e.1 < n ∧ e.2 < placedSize l n numPhysical := by
  rcases (mem_completeLayout l n).mp he with he | he
  · have hlt := (List.mem_filter.mp he).2
    exact ⟨by simpa using hlt, lt_placedSize_of_mem l n (List.mem_of_mem_filter he)⟩
  · obtain ⟨hv, hp⟩ := List.of_mem_zip he
    refine ⟨(mem_absentBelow.mp hv).1, (mem_absentBelow.mp hp).1.trans_le ?_⟩
    exact (Nat.le_max_right _ _).trans (Nat.le_max_left _ _)

end Completion

namespace Circuit

variable {α : Type} {c out : Circuit α} {l : Layout} {numPhysical : Nat}

theorem place_eq_ok_iff : c.place l numPhysical = .ok out ↔ c.numQubits ≤ numPhysical ∧
    { (c.withInstructions (c.instructions.map (Instruction.place (completeLayout l c.numQubits)))) with
      numQubits := placedSize l c.numQubits numPhysical,
      layout := some (completeLayout l c.numQubits) } = out := by
  rw [place]
  split
  next h => simp [Nat.not_le.mpr h]
  next h => simp [Nat.le_of_not_lt h]

/-- The position of a placed qubit. -/
theorem position_spec (l : Layout) {n q : Nat} (hq : q < n) :
    (q, ((completeLayout l n).physical? q).getD q) ∈ (completeLayout l n).pairs := by
  obtain ⟨p, hp⟩ := exists_mem_completeLayout l n hq
  rw [Layout.physical?_eq_some_iff.mpr hp]
  exact hp

/-- Placement keeps a circuit well-formed. -/
theorem WellFormed.place (hc : c.WellFormed) (h : c.place l numPhysical = .ok out) : out.WellFormed := by
  obtain ⟨-, rfl⟩ := place_eq_ok_iff.mp h
  have hwide : c.numQubits ≤ placedSize l c.numQubits numPhysical :=
    (Nat.le_max_right _ _).trans (Nat.le_max_left _ _)
  have hplaced (v p : Nat) (he : (v, p) ∈ (completeLayout l c.numQubits).pairs) :
      p < placedSize l c.numQubits numPhysical := (lt_of_mem_completeLayout l c.numQubits numPhysical he).2
  refine ⟨?_, ?_, ?_, ?_, ?_, ?_, nofun⟩
  · intro i hi q hq
    obtain ⟨j, hj, rfl⟩ := List.mem_map.mp hi
    obtain ⟨v, hv, rfl⟩ := List.mem_map.mp hq
    exact hplaced v _ (position_spec l (hc.qubits_lt j hj v hv))
  · intro i hi
    obtain ⟨j, hj, rfl⟩ := List.mem_map.mp hi
    exact hc.clbits_lt j hj
  · intro i hi
    obtain ⟨j, hj, rfl⟩ := List.mem_map.mp hi
    refine List.Nodup.map_on ?_ (hc.qubits_nodup j hj)
    intro v hv w hw heq
    have hpair := (completeLayout l c.numQubits).injective _ (position_spec l (hc.qubits_lt j hj v hv)) _
      (position_spec l (hc.qubits_lt j hj w hw)) heq
    exact congrArg Prod.fst hpair
  · intro i hi hname
    obtain ⟨j, hj, rfl⟩ := List.mem_map.mp hi
    have hwidth := hc.width_eq_one j hj hname
    simpa [Instruction.width, Instruction.place, Instruction.onQubits] using hwidth
  · intro k hk e he
    cases hk
    exact ⟨(lt_of_mem_completeLayout l c.numQubits 0 he).1.trans_le hwide, hplaced e.1 e.2 he⟩
  · intro k hk e he
    obtain ⟨hv, hp⟩ := hc.finalLayout_lt k hk e he
    exact ⟨hv.trans_le hwide, hp.trans_le hwide⟩

/-- On a device with all the positions that a layout names, the placed circuit has the size of the device. -/
theorem numQubits_of_place (h : c.place l numPhysical = .ok out) (hl : ∀ e ∈ l.pairs, e.2 < numPhysical) :
    out.numQubits = numPhysical := by
  obtain ⟨hfit, rfl⟩ := place_eq_ok_iff.mp h
  exact placedSize_eq l c.numQubits hfit hl

/-- Trivial placement leaves every qubit where it is. -/
theorem completeLayout_trivial (n : Nat) : completeLayout (.trivial n) n = .trivial n := by
  have hbelow : (Layout.trivial n).below n = (Layout.trivial n).pairs := by
    exact List.filter_eq_self.mpr fun e he => decide_eq_true (Layout.lt_of_mem_trivial he).1
  have hunplaced : (Layout.trivial n).unplaced n = [] := by
    refine List.eq_nil_iff_forall_not_mem.mpr fun q hq => ?_
    obtain ⟨hlt, hnot⟩ := mem_absentBelow.mp hq
    rw [hbelow] at hnot
    exact hnot (List.mem_map.mpr ⟨(q, q), List.mem_map.mpr ⟨q, List.mem_range.mpr hlt, rfl⟩, rfl⟩)
  refine Layout.eq_of_mem_iff fun e => ?_
  rw [mem_completeLayout, hbelow, hunplaced, List.zip_nil_left]
  simp

theorem WellFormed.placeTrivially (hc : c.WellFormed) (hfit : c.numQubits ≤ numPhysical) :
    c.placeTrivially (some numPhysical) = .ok { c with
      numQubits := numPhysical, layout := some (.trivial c.numQubits), startTimes := none } := by
  have hsize : placedSize (.trivial c.numQubits) c.numQubits numPhysical = numPhysical := by
    exact placedSize_eq _ _ hfit fun e he => (Layout.lt_of_mem_trivial he).2.trans_le hfit
  have hsame : c.instructions.map (Instruction.place (.trivial c.numQubits)) = c.instructions := by
    refine (List.map_congr_left fun i hi => ?_).trans (List.map_id _)
    have hqubits : i.qubits.map (fun q => ((Layout.trivial c.numQubits).physical? q).getD q) = i.qubits := by
      refine (List.map_congr_left fun q hq => ?_).trans (List.map_id _)
      rw [Layout.physical?_trivial (hc.qubits_lt i hi q hq)]
      rfl
    rw [Instruction.place, hqubits]
    rfl
  rw [Circuit.placeTrivially, place_eq_ok_iff]
  refine ⟨hfit, ?_⟩
  rw [completeLayout_trivial, hsame, Option.getD_some, hsize]
  rfl

theorem lt_of_mem_fillOrder {m : CouplingMap} {q : Nat} (h : q ∈ m.fillOrder) : q < m.numQubits := by
  rcases List.mem_append.mp h with h | h
  · obtain ⟨t, ht, rfl⟩ := List.mem_map.mp h
    cases hhub : m.hub? with
    | none => simp [hhub] at ht
    | some start =>
      rw [hhub] at ht
      exact (isWalk_of_mem_trails ht).inRange t.last (by simp [Trail.path])
  · exact (mem_absentBelow.mp h).1

/-- Dense placement names positions on the map only. -/
theorem lt_of_mem_region {m : CouplingMap} {n : Nat} {e : Nat × Nat}
    (he : e ∈ (Layout.ofPairs ((m.fillOrder.take n).zipIdx.map fun e => (e.2, e.1))).pairs) : e.2 < m.numQubits := by
  obtain ⟨q, hq, rfl⟩ := List.mem_map.mp (Layout.mem_of_mem_ofPairs he)
  exact lt_of_mem_fillOrder (List.mem_of_mem_take (List.fst_mem_of_mem_zipIdx hq))

end Circuit

end CircuitStages
