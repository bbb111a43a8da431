import Mathlib.Algebra.Order.Ring.Int
import CircuitStages.Proofs.Schedule.Earliest

namespace CircuitStages

/-! What reads a schedule backwards from a point in time makes a schedule of the reversed instructions, in the opposite
order of times and without loss. The latest starts are the earliest ones of the reversed instructions, read backwards
from their end, so what is known of the one policy carries over to the other. -/

open scoped ExactTime

variable {τ : Type} [AddCommGroup τ] {duration : Instruction τ → τ} {is : List (Instruction τ)}
  {starts starts' : List τ} {finish : τ}

/-- The ends of instructions with given start times. -/
def endTimes (duration : Instruction τ → τ) (is : List (Instruction τ)) (starts : List τ) : List τ :=
  (is.zip starts).map fun e => e.2 + duration e.1

/-- Start times read backwards: an instruction starts as long after zero as it ended before `finish`. -/
def mirrored (duration : Instruction τ → τ) (finish : τ) (is : List (Instruction τ)) (starts : List τ) : List τ :=
  ((endTimes duration is starts).map (finish - ·)).reverse

theorem sub_end_add (finish t d : τ) : finish - (t + d) + d = finish - t := by rw [sub_add_eq_sub_sub, sub_add_cancel]

theorem length_mirrored (h : starts.length = is.length) :
    (mirrored duration finish is starts).length = is.reverse.length := by
  simp [mirrored, endTimes, h]

theorem zip_mirrored (h : starts.length = is.length) : is.reverse.zip (mirrored duration finish is starts) =
    ((is.zip starts).map fun e => (e.1, finish - (e.2 + duration e.1))).reverse := by
  symm
  apply List.zip_of_prod
  · rw [List.map_reverse, List.map_map]
    exact congrArg List.reverse (List.map_fst_zip (le_of_eq h.symm))
  · rw [List.map_reverse, List.map_map, mirrored, endTimes, List.map_map]
    rfl

/-- Then it ends as long after zero as it started before `finish`. -/
theorem endTimes_mirrored (h : starts.length = is.length) :
    endTimes duration is.reverse (mirrored duration finish is starts) = (starts.map (finish - ·)).reverse := by
  have hstarts : (is.zip starts).map Prod.snd = starts := List.map_snd_zip (le_of_eq h)
  rw [endTimes, zip_mirrored h, List.map_reverse, List.map_map]
  refine congrArg List.reverse ?_
  calc (is.zip starts).map (fun e => finish - (e.2 + duration e.1) + duration e.1)
      = (is.zip starts).map (fun e => finish - e.2) := List.map_congr_left fun e _ => sub_end_add finish e.2 _
    _ = ((is.zip starts).map Prod.snd).map (finish - ·) := List.map_map.symm
    _ = starts.map (finish - ·) := by rw [hstarts]

theorem mirrored_mirrored (h : starts.length = is.length) :
    mirrored duration finish is.reverse (mirrored duration finish is starts) = starts := by
  rw [mirrored, endTimes_mirrored h, List.map_reverse, List.reverse_reverse, List.map_map]
  exact List.map_id'' (sub_sub_cancel finish) starts

variable [LinearOrder τ]

theorem nonneg_reverse (hd : ∀ i ∈ is, 0 ≤ duration i) : ∀ i ∈ is.reverse, 0 ≤ duration i :=
  fun i hi => hd i (List.mem_reverse.mp hi)

section Makespan

variable [One τ]

/-- The end of a schedule. -/
def makespan (duration : Instruction τ → τ) (is : List (Instruction τ)) (starts : List τ) : τ :=
  latest (endTimes duration is starts)

theorem makespan_nonneg (duration : Instruction τ → τ) (is : List (Instruction τ)) (starts : List τ) :
    0 ≤ makespan duration is starts := (latest_le_iff.mp (le_refl _)).1

theorem map_snd_earliestSlots (free : FreeTimes τ) (is : List (Instruction τ)) :
    (earliestSlots duration free.qubit free.clbit is).map (·.2) =
      endTimes duration is (earliestStarts duration free is) := by
  induction is generalizing free with
  | nil => rfl
  | cons i is ih => exact congrArg (_ :: ·) (ih (free.behind i (free.earliest i + duration i)))

/-- The latest starts are the earliest ones of the reversed instructions, read backwards from their end. -/
theorem scheduledStarts_alap (duration : Instruction τ → τ) (is : List (Instruction τ)) :
    let starts := scheduledStarts .asap duration is.reverse
    scheduledStarts .alap duration is = mirrored duration (makespan duration is.reverse starts) is.reverse starts := by
  intro starts
  have hends : (slots duration is.reverse).map (·.2) = endTimes duration is.reverse starts :=
    map_snd_earliestSlots .start is.reverse
  calc scheduledStarts .alap duration is
      = (endTimes duration is.reverse starts).reverse.map
          (latest (endTimes duration is.reverse starts).reverse - ·) := by rw [← hends]; rfl
    _ = mirrored duration (makespan duration is.reverse starts) is.reverse starts := by
      rw [latest_reverse, List.map_reverse]
      rfl

end Makespan

variable [IsOrderedAddMonoid τ]

/-- In a schedule that has ended by `finish` nothing starts before zero when it is read backwards, and what followed an
instruction that shares an operand now comes before it. -/
theorem IsSchedule.mirror (h : IsSchedule duration is starts)
    (hfinish : ∀ t ∈ endTimes duration is starts, t ≤ finish) :
    IsSchedule duration is.reverse (mirrored duration finish is starts) where
  length_eq := length_mirrored h.length_eq
  nonneg := by
    intro t ht
    obtain ⟨stop, hstop, rfl⟩ := List.mem_map.mp (List.mem_reverse.mp ht)
    exact sub_nonneg_of_le (hfinish stop hstop)
  follows := by
    rw [zip_mirrored h.length_eq, List.pairwise_reverse, List.pairwise_map]
    refine h.follows.imp fun {a b} hab hshare => ?_
    calc finish - (b.2 + duration b.1) + duration b.1
        = finish - b.2 := sub_end_add finish b.2 (duration b.1)
      _ ≤ finish - (a.2 + duration a.1) := sub_le_sub_left (hab hshare.symm) finish

theorem endTimes_le (h : List.Forall₂ (· ≤ ·) starts starts') :
    List.Forall₂ (· ≤ ·) (endTimes duration is starts) (endTimes duration is starts') := by
  induction h generalizing is with
  | nil => simp [endTimes]
  | cons hst _ ih =>
    cases is with
    | nil => exact .nil
    | cons i is => exact .cons (add_le_add_left hst (duration i)) ih

/-- Later starts are earlier ones when read backwards. -/
theorem mirrored_le (h : List.Forall₂ (· ≤ ·) starts starts') :
    List.Forall₂ (· ≤ ·) (mirrored duration finish is starts') (mirrored duration finish is starts) := by
  rw [mirrored, mirrored, List.forall₂_reverse_iff, List.forall₂_map_left_iff, List.forall₂_map_right_iff]
  exact (endTimes_le h).flip.imp fun _ _ hle => sub_le_sub_left hle finish

variable [One τ]

theorem makespan_le (h : List.Forall₂ (· ≤ ·) starts starts') :
    makespan duration is starts ≤ makespan duration is starts' := latest_le_latest (endTimes_le h)

/-- What reads a schedule backwards from a point in time has ended by it. -/
theorem IsSchedule.makespan_mirrored_le (h : IsSchedule duration is starts) (hfinish : 0 ≤ finish) :
    makespan duration is.reverse (mirrored duration finish is starts) ≤ finish := by
  refine latest_le_iff.mpr ⟨hfinish, fun stop hstop => ?_⟩
  rw [endTimes_mirrored h.length_eq] at hstop
  obtain ⟨t, ht, rfl⟩ := List.mem_map.mp (List.mem_reverse.mp hstop)
  exact sub_le_self finish (h.nonneg t ht)

section Policies

variable (hd : ∀ i ∈ is, 0 ≤ duration i)
include hd

theorem makespan_reverse_le : makespan duration is.reverse (scheduledStarts .asap duration is.reverse) ≤
    makespan duration is (scheduledStarts .asap duration is) := by
  have hearliest := isSchedule_earliest hd
  have hbackwards := hearliest.mirror fun _ => le_latest
  exact (makespan_le (hbackwards.earliest_le (nonneg_reverse hd))).trans
    (hearliest.makespan_mirrored_le (makespan_nonneg duration is (scheduledStarts .asap duration is)))

/-- The reversed instructions take as long as the instructions. -/
theorem makespan_reverse : makespan duration is.reverse (scheduledStarts .asap duration is.reverse) =
    makespan duration is (scheduledStarts .asap duration is) := by
  have hback := makespan_reverse_le (nonneg_reverse hd)
  rw [List.reverse_reverse] at hback
  exact le_antisymm (makespan_reverse_le hd) hback

theorem isSchedule_latest : IsSchedule duration is (scheduledStarts .alap duration is) := by
  have hbackwards := (isSchedule_earliest (nonneg_reverse hd)).mirror fun _ => le_latest
  rw [List.reverse_reverse] at hbackwards
  rw [scheduledStarts_alap]
  exact hbackwards

theorem makespan_latest : makespan duration is (scheduledStarts .alap duration is) =
    makespan duration is (scheduledStarts .asap duration is) := by
  have hbackwards := (isSchedule_earliest (nonneg_reverse hd)).makespan_mirrored_le
    (makespan_nonneg duration is.reverse (scheduledStarts .asap duration is.reverse))
  rw [List.reverse_reverse, ← scheduledStarts_alap, makespan_reverse hd] at hbackwards
  exact le_antisymm hbackwards (makespan_le ((isSchedule_latest hd).earliest_le hd))

/-- No schedule that has ended with the earliest one starts an instruction after its latest start. -/
theorem IsSchedule.le_alap (h : IsSchedule duration is starts)
    (hends : ∀ t ∈ endTimes duration is starts, t ≤ makespan duration is (scheduledStarts .asap duration is)) :
    List.Forall₂ (· ≤ ·) starts (scheduledStarts .alap duration is) := by
  let finish := makespan duration is (scheduledStarts .asap duration is)
  have hbackwards := (h.mirror hends).earliest_le (nonneg_reverse hd)
  have htwice : mirrored duration finish is.reverse (mirrored duration finish is starts) = starts :=
    mirrored_mirrored h.length_eq
  rw [scheduledStarts_alap, makespan_reverse hd, ← htwice]
  exact mirrored_le hbackwards

end Policies

namespace Circuit

/-- With either policy every instruction gets a start time, none is negative, and instructions that share a qubit or a
classical bit never overlap, however many others there are between them. -/
theorem isSchedule_schedule (policy : SchedulingPolicy) (target : Option (Target τ)) (c : Circuit τ)
    (hd : ∀ i ∈ c.instructions, 0 ≤ instructionDuration target i) :
    ∃ starts, c.setStartTimes starts = .ok (c.schedule policy target) ∧
      (c.schedule policy target).startTimes = some starts ∧
      IsSchedule (instructionDuration target) c.instructions starts := by
  refine ⟨_, c.setStartTimes_scheduledStarts policy target, rfl, ?_⟩
  cases policy with
  | asap => exact isSchedule_earliest hd
  | alap => exact isSchedule_latest hd

/-- Instructions of different lengths on common qubits, and two that share a classical bit only. -/
def errands : Circuit ℤ :=
  (empty "errands" 3 1).withInstructions
    [.h 0, .cx 0 1, .barrier [1, 2], .delay 4 2, .measure 1 0, .controlFlow "if_else" [2] [0]]

/-- A device on which the gate between two qubits is slow. -/
def slowLink : Target ℤ := (Target.empty 3).addOperation "cx" [⟨[0, 1], some 5, none⟩]

theorem isSchedule_schedule_errands : (∀ i ∈ errands.instructions, 0 ≤ instructionDuration (some slowLink) i) ∧
    ∃ starts, errands.setStartTimes starts = .ok (errands.schedule .alap (some slowLink)) ∧
      (errands.schedule .alap (some slowLink)).startTimes = some starts ∧
      IsSchedule (instructionDuration (some slowLink)) errands.instructions starts :=
  have hd : ∀ i ∈ errands.instructions, 0 ≤ instructionDuration (some slowLink) i := by decide
  ⟨hd, isSchedule_schedule .alap (some slowLink) errands hd⟩

example : (errands.schedule .alap (some slowLink)).startTimes = some [0, 1, 6, 6, 9, 10] := by decide

/-- The two policies give the extremes of all shortest schedules. No schedule starts an instruction before the earliest
start or ends before the earliest one; the latest one ends with it; and whatever has ended by then starts no instruction
after its latest start. -/
theorem schedule_extremes (target : Option (Target τ)) (c : Circuit τ)
    (hd : ∀ i ∈ c.instructions, 0 ≤ instructionDuration target i) :
    let duration := instructionDuration target
    ∃ early late, (c.schedule .asap target).startTimes = some early ∧
      (c.schedule .alap target).startTimes = some late ∧
      IsSchedule duration c.instructions early ∧
      IsSchedule duration c.instructions late ∧
      makespan duration c.instructions late = makespan duration c.instructions early ∧
      ∀ starts, IsSchedule duration c.instructions starts →
        List.Forall₂ (· ≤ ·) early starts ∧
        makespan duration c.instructions early ≤ makespan duration c.instructions starts ∧
        ((∀ t ∈ endTimes duration c.instructions starts, t ≤ makespan duration c.instructions early) →
          List.Forall₂ (· ≤ ·) starts late) := by
  intro duration
  refine ⟨_, _, rfl, rfl, isSchedule_earliest hd, isSchedule_latest hd, makespan_latest hd, fun starts h => ?_⟩
  have hearliest := h.earliest_le hd
  exact ⟨hearliest, makespan_le hearliest, h.le_alap hd⟩

theorem schedule_extremes_errands : (∀ i ∈ errands.instructions, 0 ≤ instructionDuration (some slowLink) i) ∧
    let duration := instructionDuration (some slowLink)
    ∃ early late, (errands.schedule .asap (some slowLink)).startTimes = some early ∧
      (errands.schedule .alap (some slowLink)).startTimes = some late ∧
      IsSchedule duration errands.instructions early ∧
      IsSchedule duration errands.instructions late ∧
      makespan duration errands.instructions late = makespan duration errands.instructions early ∧
      ∀ starts, IsSchedule duration errands.instructions starts →
        List.Forall₂ (· ≤ ·) early starts ∧
        makespan duration errands.instructions early ≤ makespan duration errands.instructions starts ∧
        ((∀ t ∈ endTimes duration errands.instructions starts, t ≤ makespan duration errands.instructions early) →
          List.Forall₂ (· ≤ ·) starts late) :=
  have hd : ∀ i ∈ errands.instructions, 0 ≤ instructionDuration (some slowLink) i := by decide
  ⟨hd, schedule_extremes (some slowLink) errands hd⟩

end Circuit

end CircuitStages
