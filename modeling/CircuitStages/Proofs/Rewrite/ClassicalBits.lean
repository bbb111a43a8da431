import CircuitStages.Proofs.Pass.Runs
import CircuitStages.Proofs.Rewrite.Links
import CircuitStages.Proofs.Rewrite.Reduction

namespace CircuitStages

section Mentions

variable {α : Type} {is js : List (Instruction α)} {i : Instruction α} {b : Nat}

/-- Whether one of some instructions reads or writes a classical bit. -/
def Mentions (is : List (Instruction α)) (b : Nat) : Prop := ∃ i ∈ is, b ∈ i.clbits

theorem mentions_singleton : Mentions [i] b ↔ b ∈ i.clbits := by
  simp [Mentions]

theorem mentions_append : Mentions (is ++ js) b ↔ Mentions is b ∨ Mentions js b := by
  simp [Mentions, or_and_right, exists_or]

theorem not_mentions (h : ∀ i ∈ is, i.clbits = []) : ¬ Mentions is b := by
  rintro ⟨i, hi, hb⟩
  rw [h i hi] at hb
  cases hb

-- Gates made anew touch no classical bits.

theorem clbits_of_mem_expandGate [Angle α] {basis : List String} {levels : Levels} {bound : Nat} (hgate : i.isGate)
    (hbasis : ¬ basis.contains i.name) (h : expandGate basis levels bound i = .ok js) : ∀ j ∈ js, j.clbits = [] := by
  intro j hj
  rcases expandGate_eq_ok h hj with ⟨-, hkeep⟩ | ⟨k, -, -, r, -, -, g, hg, gs, hgs, hmem⟩
  · exact absurd (by simpa [hgate] using hkeep) hbasis
  -- the first rule drops the bits, and what rules make of gates without bits has none
  · exact expandGate_induction (P := fun g => g.clbits = []) (fun _ _ _ _ _ _ _ => clbits_of_mem_expand) hgs
      (clbits_of_mem_expand hg) hmem

theorem clbits_of_mem_turnedCx {a b : Nat} : ∀ j ∈ (turnedCx a b : List (Instruction α)), j.clbits = [] := by
  simp [turnedCx, Instruction.h, Instruction.cx, Instruction.gate]

theorem clbits_of_mem_decomposition? (h : decomposition? i = some js) : ∀ j ∈ js, j.clbits = [] := by
  have hall : js.all (·.clbits.isEmpty) := by
    obtain ⟨a, b, c, -, hname⟩ := decomposition?_eq_some h
    rcases hname with ⟨-, rfl⟩ | ⟨-, rfl⟩ | ⟨-, rfl⟩
    all_goals rfl
  simpa using hall

end Mentions

/-- The passes that rewrite a circuit gate by gate. -/
inductive Rewriting where
  | translation (basis : Option (List String))
  | direction (target : Option (Target Float)) (map : Option CouplingMap)
  | reduction (target : Option (Target Float)) (basis : Option BasisGates) (settings : SynthesisSettings)

namespace Rewriting

def pass : Rewriting → Pass
  | translation basis => .basisTranslation basis
  | direction target map => .gateDirection target map
  | reduction target basis settings => .reduceWide target basis settings

/-- What takes the place of an instruction. -/
def replace : Rewriting → Instruction Float → Except CircuitError (List (Instruction Float))
  | translation none, i => .ok [i]
  | translation (some basis), i =>
    expandGate basis (gateLevels basis) ((level? basis (gateLevels basis) i.name).getD 0) i
  | direction target map, i => directOne (hasDirection target map) i
  | reduction target basis _, i => reduceOne (isNative target basis) i

/-- Whether new gates take the place of an instruction. -/
def Expands : Rewriting → Instruction Float → Prop
  | translation none, _ => False
  | translation (some basis), i => i.isGate ∧ ¬ basis.contains i.name
  | direction target map, i =>
    i.name = "cx" ∧ ∃ a b, i.link? = some (a, b) ∧ ¬ hasDirection target map i.name a b
  | reduction target basis _, i => 3 ≤ i.width ∧ ¬ MayStay (isNative target basis) i

variable {c out : Circuit Float} {r : Rewriting} {i : Instruction Float} {is gs : List (Instruction Float)}
  {blocks : List (List (Instruction Float))} {b : Nat}

theorem exists_blocks_of_run (h : r.pass.run c = .success out) :
    ∃ blocks, List.Forall₂ (fun i gs => r.replace i = .ok gs) c.instructions blocks ∧
      out.instructions = blocks.flatten := by
  have hblocks {f : Instruction Float → Except CircuitError (List (Instruction Float))}
      (h : Outcome.ofInstructions c (List.flatten <$> c.instructions.mapM f) = .success out) :
      ∃ blocks, List.Forall₂ (fun i gs => f i = .ok gs) c.instructions blocks ∧ out.instructions = blocks.flatten := by
    obtain ⟨is, his, rfl⟩ := Outcome.ofInstructions_eq_success.mp h
    obtain ⟨blocks, hblocks, rfl⟩ := map_eq_ok.mp his
    exact ⟨blocks, mapM_eq_ok_iff.mp hblocks, rfl⟩
  cases r with
  | translation basis =>
    cases basis with
    | none =>
      rw [pass, Pass.run] at h
      cases h
      refine ⟨c.instructions.map fun i => [i], ?_, (List.flatMap_singleton' c.instructions).symm⟩
      exact List.forall₂_map_right_iff.mpr (List.forall₂_same.mpr fun _ _ => rfl)
    | some basis =>
      rw [pass, Pass.run] at h
      exact hblocks h
  | direction target map =>
    rw [pass, Pass.run] at h
    exact hblocks h
  | reduction target basis settings =>
    rw [pass, Pass.run] at h
    exact hblocks h

/-- What takes the place of an instruction mentions its classical bits, unless it is made anew. -/
theorem mentions_replace (h : r.replace i = .ok gs) : Mentions gs b ↔ ¬ r.Expands i ∧ b ∈ i.clbits := by
  cases r with
  | translation basis =>
    cases basis with
    | none =>
      cases h
      simp [mentions_singleton, Expands]
    | some basis =>
      by_cases hnew : i.isGate ∧ ¬ basis.contains i.name
      · exact iff_of_false (not_mentions (clbits_of_mem_expandGate hnew.1 hnew.2 h)) fun hb => hb.1 hnew
      · have hkeep : !i.isGate || basis.contains i.name := by
          rcases Decidable.not_and_iff_or_not.mp hnew with hgate | hin
          · simp [hgate]
          · rw [Decidable.not_not.mp hin, Bool.or_true]
        rw [replace, expandGate_of_keep hkeep] at h
        cases h
        simp only [mentions_singleton, Expands, hnew, not_false_eq_true, true_and]
  | direction target map =>
    rcases directOne_eq_ok_iff.mp h with ⟨rfl, hkeep⟩ | ⟨x, y, hxy, hnot, -, ⟨hname, rfl⟩ | ⟨hname, rfl⟩⟩
    · have hold : ¬ (direction target map).Expands i := fun ⟨_, x, y, hxy, hnot⟩ => hnot (hkeep x y hxy)
      simp only [mentions_singleton, hold, not_false_eq_true, true_and]
    · exact iff_of_false (not_mentions clbits_of_mem_turnedCx) fun hb => hb.1 ⟨hname, x, y, hxy, hnot⟩
    · have hne : i.name ≠ "cx" := ne_of_mem_of_not_mem hname (by decide)
      have hold : ¬ (direction target map).Expands i := fun hnew => hne hnew.1
      simp only [mentions_singleton, hold, not_false_eq_true, true_and]
      rfl
  | reduction target basis settings =>
    rcases reduceOne_eq_ok_iff.mp h with ⟨rfl, hkeep⟩ | ⟨hwide, hnot, hapart⟩
    · have hold : ¬ (reduction target basis settings).Expands i := fun hnew => hnew.2 (hkeep hnew.1)
      simp only [mentions_singleton, hold, not_false_eq_true, true_and]
    · exact iff_of_false (not_mentions (clbits_of_mem_decomposition? hapart)) fun hb => hb.1 ⟨hwide, hnot⟩

/-- Whether what takes the place of each instruction mentions the same classical bits together. -/
def KeepsBits (is : List (Instruction Float)) (blocks : List (List (Instruction Float))) : Prop :=
  List.Forall₂ (fun i gs => ∀ b, Mentions gs b ↔ b ∈ i.clbits) is blocks

theorem keepsBits_iff_of_blocks (h : List.Forall₂ (fun i gs => r.replace i = .ok gs) is blocks) :
    KeepsBits is blocks ↔ ∀ i ∈ is, r.Expands i → i.clbits = [] := by
  induction h with
  | nil => simp [KeepsBits]
  | @cons i gs is blocks hgs _ ih =>
    have hone : (∀ b, Mentions gs b ↔ b ∈ i.clbits) ↔ (r.Expands i → i.clbits = []) := by
      simp only [mentions_replace hgs, and_iff_right_iff_imp, List.eq_nil_iff_forall_not_mem]
      exact ⟨fun h hnew b hb => h b hb hnew, fun h b hb hnew => h hnew b hb⟩
    rw [KeepsBits, List.forall₂_cons, List.forall_mem_cons, hone]
    exact and_congr_right fun _ => ih

theorem mentions_flatten (h : List.Forall₂ (fun i gs => r.replace i = .ok gs) is blocks) :
    Mentions blocks.flatten b ↔ ∃ i ∈ is, ¬ r.Expands i ∧ b ∈ i.clbits := by
  induction h with
  | nil => simp [Mentions]
  | @cons i gs is blocks hgs _ ih =>
    rw [List.flatten_cons, mentions_append, mentions_replace hgs, ih, List.exists_mem_cons_iff]

/-- The passes that rewrite a circuit gate by gate keep the classical bits of its gates exactly where no gate that lists
some is made anew. In any case the circuit afterwards mentions the classical bits of the instructions that are not made
anew, and no others. -/
theorem keepsBits_iff (r : Rewriting) (h : r.pass.run c = .success out) :
    ∃ blocks, List.Forall₂ (fun i gs => r.replace i = .ok gs) c.instructions blocks ∧
      out.instructions = blocks.flatten ∧
      (KeepsBits c.instructions blocks ↔ ∀ i ∈ c.instructions, r.Expands i → i.clbits = []) ∧
      ∀ b, Mentions out.instructions b ↔ ∃ i ∈ c.instructions, ¬ r.Expands i ∧ b ∈ i.clbits := by
  obtain ⟨blocks, hblocks, hout⟩ := exists_blocks_of_run h
  refine ⟨blocks, hblocks, hout, keepsBits_iff_of_blocks hblocks, fun b => ?_⟩
  rw [hout, mentions_flatten hblocks]

/-- A conditioned gate on its own. -/
def conditioned (name : String) (qubits : List Nat) : Circuit Float :=
  (Circuit.empty "conditioned" 3 1).withInstructions [⟨name, qubits, [0], []⟩]

/-- A chain on which gates go one way only. -/
def downstream : Rewriting := direction none (some (.ofEdges [(0, 1), (1, 2)]))

theorem wellFormed_conditioned {name : String} {qubits : List Nat} (hlt : ∀ q ∈ qubits, q < 3) (hnd : qubits.Nodup)
    (hname : name ∉ singleQubitNames) : (conditioned name qubits).WellFormed := by
  constructor <;> simp_all [conditioned, Circuit.withInstructions, Circuit.empty]

/-- A conditioned `cz` is turned by exchanging its operands, and keeps its condition. -/
theorem keepsBits_cz : ∃ out blocks, downstream.pass.run (conditioned "cz" [1, 0]) = .success out ∧
    out.instructions = blocks.flatten ∧ out.instructions = [⟨"cz", [0, 1], [0], []⟩] ∧
    KeepsBits (conditioned "cz" [1, 0]).instructions blocks ∧ Mentions out.instructions 0 := by
  have hrun : downstream.pass.run (conditioned "cz" [1, 0]) =
      .success ((conditioned "cz" [1, 0]).withInstructions [⟨"cz", [0, 1], [0], []⟩]) := by
    rw [downstream, pass, Pass.run]
    rfl
  have hold : ∀ i ∈ (conditioned "cz" [1, 0]).instructions, ¬ downstream.Expands i := by
    intro i hi hnew
    rw [List.mem_singleton.mp hi] at hnew
    exact absurd hnew.1 (by decide)
  obtain ⟨blocks, -, hblocks, hkeeps, hmentions⟩ := keepsBits_iff downstream hrun
  refine ⟨_, blocks, hrun, hblocks, rfl, hkeeps.mpr fun i hi hnew => absurd hnew (hold i hi), (hmentions 0).mpr ?_⟩
  exact ⟨_, List.mem_singleton_self _, hold _ (List.mem_singleton_self _), List.mem_singleton_self _⟩

/-- Whether a pass succeeds on a well-formed circuit, with these instructions, and loses a classical bit. -/
def LosesBit (r : Rewriting) (c : Circuit Float) (is : List (Instruction Float)) : Prop :=
  c.WellFormed ∧ r.pass.run c = .success (c.withInstructions is) ∧ ∃ b, Mentions c.instructions b ∧ ¬ Mentions is b

/-- Each pass loses the condition of a gate that it makes anew. -/
theorem losesBit_conditioned :
    (translation (some ["cz", "h"])).LosesBit (conditioned "cx" [1, 0]) [.h 0, .cz 1 0, .h 0] ∧
    downstream.LosesBit (conditioned "cx" [1, 0]) [.h 1, .h 0, .cx 0 1, .h 1, .h 0] ∧
    (reduction none none ⟨none, "", .null, .null⟩).LosesBit (conditioned "ccx" [0, 1, 2]) (toffoli 0 1 2) := by
  have hcx : (conditioned "cx" [1, 0]).WellFormed := wellFormed_conditioned (by decide) (by decide) (by decide)
  have hccx : (conditioned "ccx" [0, 1, 2]).WellFormed := wellFormed_conditioned (by decide) (by decide) (by decide)
  have hmentions (name : String) (qubits : List Nat) : Mentions (conditioned name qubits).instructions 0 :=
    mentions_singleton.mpr (List.mem_singleton_self 0)
  refine ⟨⟨hcx, ?_, 0, hmentions "cx" [1, 0], not_mentions (by decide)⟩,
    ⟨hcx, ?_, 0, hmentions "cx" [1, 0], not_mentions (by decide)⟩,
    ⟨hccx, ?_, 0, hmentions "ccx" [0, 1, 2], not_mentions (by decide)⟩⟩
  · rw [pass, Pass.run]
    rfl
  · rw [downstream, pass, Pass.run]
    rfl
  · rw [pass, Pass.run]
    rfl

end Rewriting

end CircuitStages
