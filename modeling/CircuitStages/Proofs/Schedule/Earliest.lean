import Mathlib.Algebra.Order.Group.Defs
import Mathlib.Data.List.Forall2
import CircuitStages.Proofs.Circuit.Depth
import CircuitStages.Proofs.Mapping.Dependencies
import CircuitStages.Proofs.Pass.WellFormed

namespace CircuitStages

namespace ExactTime

/-- Times that are added and compared without rounding. -/
scoped instance exactDuration {τ : Type} [AddCommGroup τ] [LinearOrder τ] [One τ] : Duration τ where
  toZero := inferInstance
  toOne := inferInstance
  toAdd := inferInstance
  toSub := inferInstance
  later := max

end ExactTime

open scoped ExactTime

variable {τ : Type} [AddCommGroup τ] [LinearOrder τ] {duration : Instruction τ → τ} {is : List (Instruction τ)}
  {i j : Instruction τ} {times starts : List τ} {s t stop bound : τ}

/-- When each qubit and each classical bit becomes free. -/
structure FreeTimes (τ : Type) where
  qubit : Nat → τ
  clbit : Nat → τ

namespace FreeTimes

variable {free : FreeTimes τ}

/-- Everything is free from the start. -/
def start : FreeTimes τ := ⟨fun _ => 0, fun _ => 0⟩

/-- Behind an instruction its operands are free from its end on. -/
def behind (free : FreeTimes τ) (i : Instruction τ) (stop : τ) : FreeTimes τ where
  qubit q := if i.qubits.contains q then stop else free.qubit q
  clbit b := if i.clbits.contains b then stop else free.clbit b

/-- Whether an instruction finds its operands free at a time. -/
structure Admits (free : FreeTimes τ) (i : Instruction τ) (t : τ) : Prop where
  nonneg : 0 ≤ t
  qubit_le : ∀ q ∈ i.qubits, free.qubit q ≤ t
  clbit_le : ∀ b ∈ i.clbits, free.clbit b ≤ t

theorem Admits.of_le (h : free.Admits i s) (hst : s ≤ t) : free.Admits i t where
  nonneg := h.nonneg.trans hst
  qubit_le q hq := (h.qubit_le q hq).trans hst
  clbit_le b hb := (h.clbit_le b hb).trans hst

/-- Behind an instruction that ends at `stop` another one is admitted as before, but only from `stop` on if they share
an operand. -/
theorem admits_behind_iff (h : free.Admits i stop) :
    (free.behind i stop).Admits j t ↔ free.Admits j t ∧ (SharesOperand i j → stop ≤ t) := by
  have hqubit (q : Nat) : (free.behind i stop).qubit q ≤ t ↔ free.qubit q ≤ t ∧ (q ∈ i.qubits → stop ≤ t) := by
    by_cases hq : q ∈ i.qubits
    · simpa [behind, hq] using fun hstop => (h.qubit_le q hq).trans hstop
    · simp [behind, hq]
  have hclbit (b : Nat) : (free.behind i stop).clbit b ≤ t ↔ free.clbit b ≤ t ∧ (b ∈ i.clbits → stop ≤ t) := by
    by_cases hb : b ∈ i.clbits
    · simpa [behind, hb] using fun hstop => (h.clbit_le b hb).trans hstop
    · simp [behind, hb]
  constructor
  · intro hj
    refine ⟨⟨hj.nonneg, ?_, ?_⟩, ?_⟩
    · exact fun q hq => ((hqubit q).mp (hj.qubit_le q hq)).1
    · exact fun b hb => ((hclbit b).mp (hj.clbit_le b hb)).1
    · rintro (⟨q, hqi, hqj⟩ | ⟨b, hbi, hbj⟩)
      · exact ((hqubit q).mp (hj.qubit_le q hqj)).2 hqi
      · exact ((hclbit b).mp (hj.clbit_le b hbj)).2 hbi
  · rintro ⟨hj, hshare⟩
    refine ⟨hj.nonneg, fun q hq => ?_, fun b hb => ?_⟩
    · exact (hqubit q).mpr ⟨hj.qubit_le q hq, fun hqi => hshare (.inl ⟨q, hqi, hq⟩)⟩
    · exact (hclbit b).mpr ⟨hj.clbit_le b hb, fun hbi => hshare (.inr ⟨b, hbi, hb⟩)⟩

end FreeTimes

/-- Start times for instructions in their order: none is negative, and none comes before the end of an earlier
instruction that shares a qubit or a classical bit. -/
structure IsSchedule (duration : Instruction τ → τ) (is : List (Instruction τ)) (starts : List τ) : Prop where
  length_eq : starts.length = is.length
  nonneg : ∀ t ∈ starts, 0 ≤ t
  follows : (is.zip starts).Pairwise fun a b => SharesOperand a.1 b.1 → a.2 + duration a.1 ≤ b.2

/-- A schedule that starts instructions when they find their operands free. -/
structure IsScheduleFrom (duration : Instruction τ → τ) (free : FreeTimes τ) (is : List (Instruction τ))
    (starts : List τ) : Prop extends IsSchedule duration is starts where
  admits : ∀ e ∈ is.zip starts, free.Admits e.1 e.2

variable {free : FreeTimes τ}

theorem IsSchedule.from_start (h : IsSchedule duration is starts) : IsScheduleFrom duration .start is starts where
  toIsSchedule := h
  admits := by
    rintro ⟨i, t⟩ he
    have ht : 0 ≤ t := h.nonneg t (List.of_mem_zip he).2
    exact ⟨ht, fun _ _ => ht, fun _ _ => ht⟩

theorem isScheduleFrom_nil : IsScheduleFrom duration free [] [] := ⟨⟨rfl, nofun, .nil⟩, nofun⟩

/-- A schedule stays one behind an instruction that ends earlier. -/
theorem IsScheduleFrom.of_le (h : IsScheduleFrom duration (free.behind i t) is starts) (hst : s ≤ t)
    (hs : free.Admits i s) : IsScheduleFrom duration (free.behind i s) is starts where
  toIsSchedule := h.toIsSchedule
  admits e he := by
    obtain ⟨hadmits, hshare⟩ := (FreeTimes.admits_behind_iff (hs.of_le hst)).mp (h.admits e he)
    exact (FreeTimes.admits_behind_iff hs).mpr ⟨hadmits, fun hshares => hst.trans (hshare hshares)⟩

/-- The first instruction starts when it is admitted, the others make a schedule behind it. -/
theorem isScheduleFrom_cons_iff [IsOrderedAddMonoid τ] (hi : 0 ≤ duration i) :
    IsScheduleFrom duration free (i :: is) (t :: starts) ↔
      free.Admits i t ∧ IsScheduleFrom duration (free.behind i (t + duration i)) is starts := by
  have hbehind (ht : free.Admits i t) (e : Instruction τ × τ) : (free.behind i (t + duration i)).Admits e.1 e.2 ↔
      free.Admits e.1 e.2 ∧ (SharesOperand i e.1 → t + duration i ≤ e.2) :=
    FreeTimes.admits_behind_iff (ht.of_le (le_add_of_nonneg_right hi))
  constructor
  · intro h
    obtain ⟨hfirst, hrest⟩ := List.forall_mem_cons.mp h.admits
    obtain ⟨hnext, hfollows⟩ := List.pairwise_cons.mp h.follows
    refine ⟨hfirst, ⟨Nat.succ.inj h.length_eq, (List.forall_mem_cons.mp h.nonneg).2, hfollows⟩, fun e he => ?_⟩
    exact (hbehind hfirst e).mpr ⟨hrest e he, hnext e he⟩
  · rintro ⟨hfirst, h⟩
    have hadmits := fun e he => (hbehind hfirst e).mp (h.admits e he)
    refine ⟨⟨congrArg Nat.succ h.length_eq, List.forall_mem_cons.mpr ⟨hfirst.nonneg, h.nonneg⟩, ?_⟩, ?_⟩
    · exact List.pairwise_cons.mpr ⟨fun e he => (hadmits e he).2, h.follows⟩
    · exact List.forall_mem_cons.mpr ⟨hfirst, fun e he => (hadmits e he).1⟩

variable [One τ]

theorem latest_le_iff : latest times ≤ bound ↔ 0 ≤ bound ∧ ∀ t ∈ times, t ≤ bound := foldl_max_le_iff

theorem le_latest (h : t ∈ times) : t ≤ latest times := (latest_le_iff.mp (le_refl _)).2 t h

theorem latest_le_latest {ts us : List τ} (h : List.Forall₂ (· ≤ ·) ts us) : latest ts ≤ latest us := by
  have hbelow (bound : τ) : (∀ u ∈ us, u ≤ bound) → ∀ t ∈ ts, t ≤ bound := by
    induction h with
    | nil => exact fun _ => nofun
    | cons htu _ ih =>
      intro hus
      obtain ⟨hu, hus⟩ := List.forall_mem_cons.mp hus
      exact List.forall_mem_cons.mpr ⟨htu.trans hu, ih hus⟩
  obtain ⟨hnonneg, hus⟩ := latest_le_iff.mp (le_refl (latest us))
  exact latest_le_iff.mpr ⟨hnonneg, hbelow _ hus⟩

theorem latest_reverse (times : List τ) : latest times.reverse = latest times :=
  eq_of_forall_ge_iff fun _ => by simp only [latest_le_iff, List.mem_reverse]

/-- The first time at which an instruction finds its operands free. -/
def FreeTimes.earliest (free : FreeTimes τ) (i : Instruction τ) : τ :=
  latest (i.qubits.map free.qubit ++ i.clbits.map free.clbit)

theorem FreeTimes.earliest_le_iff : free.earliest i ≤ t ↔ free.Admits i t := by
  rw [earliest, latest_le_iff, List.forall_mem_append, List.forall_mem_map, List.forall_mem_map]
  exact ⟨fun h => ⟨h.1, h.2.1, h.2.2⟩, fun h => ⟨h.nonneg, h.qubit_le, h.clbit_le⟩⟩

theorem FreeTimes.admits_earliest (free : FreeTimes τ) (i : Instruction τ) : free.Admits i (free.earliest i) :=
  earliest_le_iff.mp (le_refl _)

/-- The earliest start of each instruction. -/
def earliestStarts (duration : Instruction τ → τ) (free : FreeTimes τ) (is : List (Instruction τ)) : List τ :=
  (earliestSlots duration free.qubit free.clbit is).map (·.1)

theorem earliestStarts_cons (free : FreeTimes τ) (i : Instruction τ) (is : List (Instruction τ)) :
    earliestStarts duration free (i :: is) =
      free.earliest i :: earliestStarts duration (free.behind i (free.earliest i + duration i)) is := rfl

variable [IsOrderedAddMonoid τ]

theorem isScheduleFrom_earliestStarts (hd : ∀ i ∈ is, 0 ≤ duration i) :
    IsScheduleFrom duration free is (earliestStarts duration free is) := by
  induction is generalizing free with
  | nil => exact isScheduleFrom_nil
  | cons i is ih =>
    obtain ⟨hi, hrest⟩ := List.forall_mem_cons.mp hd
    rw [earliestStarts_cons]
    exact (isScheduleFrom_cons_iff hi).mpr ⟨free.admits_earliest i, ih hrest⟩

theorem IsScheduleFrom.earliestStarts_le (hd : ∀ i ∈ is, 0 ≤ duration i)
    (h : IsScheduleFrom duration free is starts) : List.Forall₂ (· ≤ ·) (earliestStarts duration free is) starts := by
  induction is generalizing free starts with
  | nil =>
    rw [List.eq_nil_of_length_eq_zero h.length_eq]
    exact .nil
  | cons i is ih =>
    obtain ⟨hi, hrest⟩ := List.forall_mem_cons.mp hd
    obtain ⟨t, starts, rfl⟩ := List.exists_cons_of_length_eq_add_one h.length_eq
    obtain ⟨hfirst, hbehind⟩ := (isScheduleFrom_cons_iff hi).mp h
    have hle : free.earliest i ≤ t := FreeTimes.earliest_le_iff.mpr hfirst
    have hends : free.earliest i + duration i ≤ t + duration i := add_le_add_left hle (duration i)
    have hstop : free.Admits i (free.earliest i + duration i) :=
      (free.admits_earliest i).of_le (le_add_of_nonneg_right hi)
    rw [earliestStarts_cons]
    exact .cons hle (ih hrest (hbehind.of_le hends hstop))

theorem isSchedule_earliest (hd : ∀ i ∈ is, 0 ≤ duration i) :
    IsSchedule duration is (scheduledStarts .asap duration is) := by
  have hstart : IsScheduleFrom duration .start is (earliestStarts duration .start is) :=
    isScheduleFrom_earliestStarts hd
  exact hstart.toIsSchedule

theorem IsSchedule.earliest_le (hd : ∀ i ∈ is, 0 ≤ duration i) (h : IsSchedule duration is starts) :
    List.Forall₂ (· ≤ ·) (scheduledStarts .asap duration is) starts :=
  h.from_start.earliestStarts_le hd

end CircuitStages
