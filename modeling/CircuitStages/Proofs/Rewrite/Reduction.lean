import CircuitStages.Proofs.Circuit.Checks
import CircuitStages.Rewrite.Native

namespace CircuitStages

variable {α : Type} {c : Circuit α} {i j : Instruction α} {is js : List (Instruction α)} {native : String → Bool}

/-- Whether an operation may stay as it is on any number of qubits. -/
def MayStay (native : String → Bool) (i : Instruction α) : Prop := i.isBarrier ∨ i.isControlFlow ∨ native i.name

/-- The gates on three qubits that are taken apart. -/
def decomposed : List String := ["ccx", "ccz", "cswap"]

theorem fits_of_mem_toffoli {x y z : Nat} (hx : x < c.numQubits) (hy : y < c.numQubits) (hz : z < c.numQubits)
    (hnd : [x, y, z].Nodup) (hj : j ∈ toffoli x y z) : c.Fits j := by
  obtain ⟨⟨hxy, hxz⟩, hyz⟩ : (x ≠ y ∧ x ≠ z) ∧ y ≠ z := by simpa using hnd
  have hcx (a b : Nat) (ha : a < c.numQubits) (hb : b < c.numQubits) (hab : a ≠ b) :
      c.Fits (.cx a b : Instruction α) := Circuit.fits_gate_two ha hb hab (by decide)
  simp only [toffoli, List.mem_cons, List.not_mem_nil, or_false] at hj
  rcases hj with rfl | rfl | rfl | rfl | rfl | rfl | rfl | rfl | rfl | rfl | rfl | rfl | rfl | rfl | rfl
  all_goals first
    | exact Circuit.fits_gate_one (by assumption)
    | exact hcx _ _ (by assumption) (by assumption) (by assumption)

theorem fits_of_mem_decomposition? (hi : c.Fits i) (h : decomposition? i = some js)
    (hj : j ∈ js) : c.Fits j := by
  rw [decomposition?] at h
  split at h
  next x y z hqs =>
    have hlt := hi.qubits_lt
    have hnd := hi.qubits_nodup
    rw [hqs] at hlt hnd
    obtain ⟨hx, hy, hz⟩ : x < c.numQubits ∧ y < c.numQubits ∧ z < c.numQubits := by simpa using hlt
    have hyz : y ≠ z := by simpa using (List.nodup_cons.mp hnd).2
    have hinner := fits_of_mem_toffoli hx hy hz hnd (α := α) (j := j)
    split_ifs at h
    · cases h
      exact hinner hj
    · cases h
      simp only [List.mem_append, List.mem_singleton] at hj
      rcases hj with (rfl | hj) | rfl
      · exact Circuit.fits_gate_one hz
      · exact hinner hj
      · exact Circuit.fits_gate_one hz
    · cases h
      simp only [List.mem_append, List.mem_singleton] at hj
      rcases hj with (rfl | hj) | rfl
      · exact Circuit.fits_gate_two hz hy hyz.symm (by decide)
      · exact hinner hj
      · exact Circuit.fits_gate_two hz hy hyz.symm (by decide)
  next => cases h

/-- What replaces an instruction fits where the instruction fits. -/
theorem fits_of_mem_reduceOne (hi : c.Fits i)
    (h : reduceOne native i = .ok js) (hj : j ∈ js) : c.Fits j := by
  rw [reduceOne] at h
  split at h
  · cases h
    exact List.mem_singleton.mp hj ▸ hi
  · split at h
    next gates hgates =>
      cases h
      exact fits_of_mem_decomposition? hi hgates hj
    next => cases h

theorem Circuit.WellFormed.reduceWide (hc : c.WellFormed)
    (h : CircuitStages.reduceWide native c.instructions = .ok js) : (c.withInstructions js).WellFormed := by
  refine hc.withInstructions fun j hj => ?_
  obtain ⟨i, hi, gates, hgates, hmem⟩ := exists_of_mem_flatten_mapM h hj
  exact fits_of_mem_reduceOne (hc.fits hi) hgates hmem

/-- A gate that is taken apart is one of three, and on three qubits. -/
theorem decomposition?_eq_some (h : decomposition? i = some js) : ∃ a b c, i.qubits = [a, b, c] ∧
    ((i.name = "ccx" ∧ js = toffoli a b c) ∨ (i.name = "ccz" ∧ js = [.h c] ++ toffoli a b c ++ [.h c]) ∨
      (i.name = "cswap" ∧ js = [.cx c b] ++ toffoli a b c ++ [.cx c b])) := by
  rw [decomposition?] at h
  split at h
  next a b c hqubits =>
    refine ⟨a, b, c, hqubits, ?_⟩
    split_ifs at h with hccx hccz hcswap
    · cases h
      exact .inl ⟨hccx, rfl⟩
    · cases h
      exact .inr (.inl ⟨hccz, rfl⟩)
    · cases h
      exact .inr (.inr ⟨hcswap, rfl⟩)
  next => cases h

theorem exists_decomposition?_iff : (∃ js, decomposition? i = some js) ↔ i.width = 3 ∧ i.name ∈ decomposed := by
  constructor
  · rintro ⟨js, h⟩
    obtain ⟨a, b, c, hqubits, hname⟩ := decomposition?_eq_some h
    refine ⟨by rw [Instruction.width, hqubits]; rfl, ?_⟩
    rcases hname with ⟨hname, -⟩ | ⟨hname, -⟩ | ⟨hname, -⟩
    all_goals simp [decomposed, hname]
  · rintro ⟨hwidth, hname⟩
    obtain ⟨a, b, c, hqubits⟩ := List.length_eq_three.mp hwidth
    simp only [decomposed, List.mem_cons, List.not_mem_nil, or_false] at hname
    rcases hname with hname | hname | hname
    all_goals simp [decomposition?, hqubits, hname]

theorem width_lt_of_mem_decomposition? (h : decomposition? i = some js) (hj : j ∈ js) : j.width < 3 := by
  have hall : js.all (·.width < 3) := by
    obtain ⟨a, b, c, -, hname⟩ := decomposition?_eq_some h
    rcases hname with ⟨-, rfl⟩ | ⟨-, rfl⟩ | ⟨-, rfl⟩
    all_goals rfl
  simpa using List.all_eq_true.mp hall j hj

/-- Each instruction is kept, or it is wide and taken apart. -/
theorem reduceOne_eq_ok_iff : reduceOne native i = .ok js ↔
    (js = [i] ∧ (3 ≤ i.width → MayStay native i)) ∨
      (3 ≤ i.width ∧ ¬ MayStay native i ∧ decomposition? i = some js) := by
  have hkeep : (i.width < 3 || i.isBarrier || i.isControlFlow || native i.name) = true ↔
      (3 ≤ i.width → MayStay native i) := by
    simp only [MayStay, Bool.or_eq_true, decide_eq_true_eq, or_assoc, ← Nat.not_le]
    exact (imp_iff_not_or).symm
  rw [reduceOne]
  split
  next h =>
    have hstay := hkeep.mp h
    constructor
    · intro hjs
      exact .inl ⟨(Except.ok.inj hjs).symm, hstay⟩
    · rintro (⟨rfl, -⟩ | ⟨hwide, hnot, -⟩)
      · rfl
      · exact absurd (hstay hwide) hnot
  next h =>
    obtain ⟨hwide, hnot⟩ := Classical.not_imp.mp (mt hkeep.mpr h)
    cases hjs : decomposition? i with
    | none => simp [hwide, hnot]
    | some gates => simp [hwide, hnot]

theorem exists_reduceOne_iff : (∃ js, reduceOne native i = .ok js) ↔
    (3 ≤ i.width → MayStay native i ∨ (i.width = 3 ∧ i.name ∈ decomposed)) := by
  constructor
  · rintro ⟨js, h⟩ hwide
    rcases reduceOne_eq_ok_iff.mp h with ⟨-, hstay⟩ | ⟨-, -, hapart⟩
    · exact .inl (hstay hwide)
    · exact .inr (exists_decomposition?_iff.mp ⟨js, hapart⟩)
  · intro h
    by_cases hstay : 3 ≤ i.width → MayStay native i
    · exact ⟨[i], reduceOne_eq_ok_iff.mpr (.inl ⟨rfl, hstay⟩)⟩
    · obtain ⟨hwide, hnot⟩ := Classical.not_imp.mp hstay
      obtain ⟨js, hjs⟩ := exists_decomposition?_iff.mpr ((h hwide).resolve_left hnot)
      exact ⟨js, reduceOne_eq_ok_iff.mpr (.inr ⟨hwide, hnot, hjs⟩)⟩

theorem exists_reduceWide_iff : (∃ js, reduceWide native is = .ok js) ↔
    ∀ i ∈ is, 3 ≤ i.width → MayStay native i ∨ (i.width = 3 ∧ i.name ∈ decomposed) := by
  rw [← forall₂_congr fun i _ => exists_reduceOne_iff]
  exact exists_flatten_mapM_eq_ok_iff

/-- Where nothing is wide, nothing is taken apart. -/
theorem reduceWide_of_width_lt (h : ∀ i ∈ is, i.width < 3) : reduceWide native is = .ok is := by
  refine flatten_mapM_eq_ok_self fun i hi => reduceOne_eq_ok_iff.mpr (.inl ⟨rfl, fun hwide => ?_⟩)
  exact absurd hwide (Nat.not_le_of_lt (h i hi))

theorem mayStay_of_mem_reduceWide (h : reduceWide native is = .ok js) (hj : j ∈ js) (hwide : 3 ≤ j.width) :
    MayStay native j := by
  obtain ⟨i, -, gates, hgates, hmem⟩ := exists_of_mem_flatten_mapM h hj
  rcases reduceOne_eq_ok_iff.mp hgates with ⟨rfl, hstay⟩ | ⟨-, -, hapart⟩
  · obtain rfl := List.mem_singleton.mp hmem
    exact hstay hwide
  · exact absurd hwide (Nat.not_le_of_lt (width_lt_of_mem_decomposition? hapart hmem))

end CircuitStages
