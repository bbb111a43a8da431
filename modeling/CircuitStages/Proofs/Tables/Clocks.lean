import CircuitStages.Proofs.Circuit.Checks
import CircuitStages.Proofs.Circuit.Depth
import CircuitStages.Proofs.Pass.WellFormed
import CircuitStages.Proofs.Tables.Basic

namespace CircuitStages

variable {α : Type} {n m : Nat} {is : List (Instruction α)} {c : Circuit α}

/-- Writes the layer of an instruction at its qubits, into a table of the last layer on each qubit. -/
def levelStep? (levels : Array Nat) (i : Instruction α) : Option (Array Nat) := do
  let reached ← readAll? levels i.qubits
  writeAll? levels i.qubits (reached.foldl max 0 + 1)

def Circuit.depthOnTable? (c : Circuit α) : Option Nat := do
  let levels ← c.instructions.foldlM levelStep? (Array.replicate c.numQubits 0)
  pure (levels.toList.foldl max 0)

/-- A layer past the last ones on some qubits is a bound for all layers so far where they end in it. -/
theorem forall_layer_le_iff {qs : List Nat} {reached : Nat → Nat} {bound : Nat} (hqs : qs ≠ [])
    (hlt : ∀ q ∈ qs, q < n) :
    (∀ q < n, (if q ∈ qs then (qs.map reached).foldl max 0 + 1 else reached q) ≤ bound) ↔
      (∀ q < n, reached q ≤ bound) ∧ (qs.map reached).foldl max 0 + 1 ≤ bound := by
  obtain ⟨p, hp⟩ := List.exists_mem_of_ne_nil qs hqs
  constructor
  · intro h
    have hlayer : (qs.map reached).foldl max 0 + 1 ≤ bound := by simpa [hp] using h p (hlt p hp)
    refine ⟨fun q hq => ?_, hlayer⟩
    by_cases hmem : q ∈ qs
    · have hbelow : reached q ≤ (qs.map reached).foldl max 0 := le_foldl_max (List.mem_map_of_mem hmem)
      omega
    · simpa [hmem] using h q hq
  · rintro ⟨h, hlayer⟩ q hq
    split
    · exact hlayer
    · exact h q hq

/-- The table ends with the last layer on each qubit, and so with the largest of all. -/
theorem exists_foldlM_levelStep? {levels : Array Nat} {reached : Nat → Nat} (h : Holds levels n reached)
    (hlt : ∀ i ∈ is, ∀ q ∈ i.qubits, q < n) :
    ∃ levels' reached', is.foldlM levelStep? levels = some levels' ∧ Holds levels' n reached' ∧
      ∀ bound, (∀ q < n, reached' q ≤ bound) ↔
        (∀ q < n, reached q ≤ bound) ∧ ∀ layer ∈ layersFrom reached is, layer ≤ bound := by
  induction is generalizing levels reached with
  | nil => exact ⟨levels, reached, rfl, h, by simp [layersFrom]⟩
  | cons i is ih =>
    obtain ⟨hi, hrest⟩ := List.forall_mem_cons.mp hlt
    obtain ⟨next, hnext, hwritten⟩ := h.writeAll? hi ((i.qubits.map reached).foldl max 0 + 1)
    have hstep : levelStep? levels i = some next := by
      rw [levelStep?, h.readAll?_eq hi]
      exact hnext
    obtain ⟨levels', reached', hfold, hholds, hbound⟩ := ih hwritten hrest
    refine ⟨levels', reached', by rw [List.foldlM_cons, hstep]; exact hfold, hholds, fun bound => ?_⟩
    rw [hbound, layersFrom, List.forall_mem_cons, ← and_assoc]
    by_cases hqubits : i.qubits = []
    · simp [hqubits]
    · rw [forall_layer_le_iff hqubits hi]
      simp [hqubits]

theorem Circuit.WellFormed.depthOnTable?_eq (hc : c.WellFormed) : c.depthOnTable? = some c.depth := by
  obtain ⟨levels, reached, hfold, hholds, hbound⟩ :=
    exists_foldlM_levelStep? (holds_replicate c.numQubits 0) hc.qubits_lt
  have hmax (bound : Nat) : levels.toList.foldl max 0 ≤ bound ↔ c.depth ≤ bound := by
    have hreached := hbound bound
    simp only [Nat.zero_le, implies_true, true_and] at hreached
    simp [hholds.toList_eq, Circuit.depth, foldl_max_le_iff, hreached]
  rw [Circuit.depthOnTable?, hfold]
  exact congrArg some (Nat.le_antisymm ((hmax _).mpr (Nat.le_refl _)) ((hmax _).mp (Nat.le_refl _)))

section Schedule

variable [Duration α]

/-- When each qubit and each classical bit becomes free. -/
structure Clocks (α : Type) where
  qubits : Array α
  clbits : Array α

/-- The start and end of each instruction when its operands are free as the clocks say. -/
def slotsOnTables? (duration : Instruction α → α) : Clocks α → List (Instruction α) → Option (List (α × α))
  | _, [] => some []
  | clocks, i :: rest => do
    let qubitTimes ← readAll? clocks.qubits i.qubits
    let clbitTimes ← readAll? clocks.clbits i.clbits
    let start := latest (qubitTimes ++ clbitTimes)
    let stop := start + duration i
    let qubits ← writeAll? clocks.qubits i.qubits stop
    let clbits ← writeAll? clocks.clbits i.clbits stop
    let later ← slotsOnTables? duration ⟨qubits, clbits⟩ rest
    pure ((start, stop) :: later)

def Circuit.scheduleOnTables? (c : Circuit α) (policy : SchedulingPolicy) (target : Option (Target α)) :
    Option (Circuit α) := do
  let clocks : Clocks α := ⟨Array.replicate c.numQubits 0, Array.replicate c.numClbits 0⟩
  let slots := slotsOnTables? (instructionDuration target) clocks
  let times ← match policy with
    | .asap => do
      let found ← slots c.instructions
      pure (found.map (·.1))
    | .alap => do
      let found ← slots c.instructions.reverse
      let ends := (found.map (·.2)).reverse
      pure (ends.map (latest ends - ·))
  (c.setStartTimes times).toOption

theorem slotsOnTables?_eq {duration : Instruction α → α} {clocks : Clocks α} {qubitFree clbitFree : Nat → α}
    (hqubits : Holds clocks.qubits n qubitFree) (hclbits : Holds clocks.clbits m clbitFree)
    (hq : ∀ i ∈ is, ∀ q ∈ i.qubits, q < n) (hb : ∀ i ∈ is, ∀ b ∈ i.clbits, b < m) :
    slotsOnTables? duration clocks is = some (earliestSlots duration qubitFree clbitFree is) := by
  induction is generalizing clocks qubitFree clbitFree with
  | nil => rfl
  | cons i is ih =>
    obtain ⟨hqi, hqrest⟩ := List.forall_mem_cons.mp hq
    obtain ⟨hbi, hbrest⟩ := List.forall_mem_cons.mp hb
    let stop := latest (i.qubits.map qubitFree ++ i.clbits.map clbitFree) + duration i
    obtain ⟨qubits, hqw, hqh⟩ := hqubits.writeAll? hqi stop
    obtain ⟨clbits, hbw, hbh⟩ := hclbits.writeAll? hbi stop
    have hlater : slotsOnTables? duration ⟨qubits, clbits⟩ is = some (earliestSlots duration _ _ is) :=
      ih hqh hbh hqrest hbrest
    rw [slotsOnTables?, hqubits.readAll?_eq hqi, hclbits.readAll?_eq hbi]
    simp only [Option.bind_eq_bind, Option.bind_some]
    rw [hqw, hbw]
    simp only [Option.bind_some]
    rw [hlater, earliestSlots]
    simp [stop]

theorem Circuit.WellFormed.scheduleOnTables?_eq (hc : c.WellFormed) (policy : SchedulingPolicy)
    (target : Option (Target α)) : c.scheduleOnTables? policy target = some (c.schedule policy target) := by
  have hslots (is : List (Instruction α)) (his : ∀ i ∈ is, i ∈ c.instructions) :
      slotsOnTables? (instructionDuration target) ⟨Array.replicate c.numQubits 0, Array.replicate c.numClbits 0⟩ is =
        some (slots (instructionDuration target) is) :=
    slotsOnTables?_eq (holds_replicate _ _) (holds_replicate _ _) (fun i hi => hc.qubits_lt i (his i hi))
      fun i hi => hc.clbits_lt i (his i hi)
  have hset : (c.setStartTimes (scheduledStarts policy (instructionDuration target) c.instructions)).toOption =
      some (c.schedule policy target) := congrArg Except.toOption (c.setStartTimes_scheduledStarts policy target)
  rw [← hset]
  cases policy with
  | asap =>
    simp only [scheduleOnTables?, hslots c.instructions fun _ hi => hi]
    rfl
  | alap =>
    simp only [scheduleOnTables?, hslots c.instructions.reverse fun _ hi => List.mem_reverse.mp hi]
    rfl

end Schedule

end CircuitStages
