import CircuitStages.Proofs.Meaning.Controlled
import CircuitStages.Proofs.Meaning.Standard
import CircuitStages.Proofs.Pass.Runs
import CircuitStages.Proofs.Rewrite.Reduction

namespace CircuitStages

variable {α : Type} {n : Nat} {V : Type*} [AddCommGroup V] [Module ℂ V] {value : α → ℝ} {i : Instruction α}
  {js : List (Instruction α)}

theorem network?_toffoli {a b c : Fin n} (hab : a ≠ b) (hac : a ≠ c) (hbc : b ≠ c) :
    network? value (toffoli a b c) = some (controlled [a, b] Turn.x c : Module.End ℂ (Register n V)) := by
  rw [← toffoli_network hab hac hbc]
  exact network?_cons (operator?_one c) (network?_cons (operator?_two b c) (network?_cons (operator?_one c)
    (network?_cons (operator?_two a c) (network?_cons (operator?_one c) (network?_cons (operator?_two b c)
    (network?_cons (operator?_one c) (network?_cons (operator?_two a c) (network?_cons (operator?_one b)
    (network?_cons (operator?_one c) (network?_cons (operator?_one c) (network?_cons (operator?_two a b)
    (network?_cons (operator?_one a) (network?_cons (operator?_one b) 
    (network?_singleton (operator?_two a b)))))))))))))))

/-- A gate on three qubits and the gates that take its place are equal. -/
theorem network?_decomposition? (hclbits : i.clbits = []) (hnd : i.qubits.Nodup) (hlt : ∀ q ∈ i.qubits, q < n)
    (h : decomposition? i = some js) :
    ∃ u : Module.End ℂ (Register n V), operator? value i = some u ∧ network? value js = some u := by
  obtain ⟨a, b, c, hqubits, hname⟩ := decomposition?_eq_some h
  obtain ⟨name, qubits, clbits, params⟩ := i
  obtain rfl : qubits = [a, b, c] := hqubits
  obtain rfl : clbits = [] := hclbits
  obtain ⟨ha, hb, hc⟩ : a < n ∧ b < n ∧ c < n := by simpa using hlt
  lift a to Fin n using ha
  lift b to Fin n using hb
  lift c to Fin n using hc
  obtain ⟨⟨hab, hac⟩, hbc⟩ : (a ≠ b ∧ a ≠ c) ∧ b ≠ c := by simpa [Fin.val_inj] using hnd
  have htoffoli : network? value (toffoli a b c) = some (controlled [a, b] Turn.x c : Module.End ℂ (Register n V)) :=
    network?_toffoli hab hac hbc
  rcases hname with ⟨rfl, rfl⟩ | ⟨rfl, rfl⟩ | ⟨rfl, rfl⟩
  · exact ⟨_, operator?_three a b c, htoffoli⟩
  · have hc : c ∉ [a, b] := by simpa using ⟨hac.symm, hbc.symm⟩
    have hh : network? value [.h c.val] = some (onQubit Turn.h c : Module.End ℂ (Register n V)) :=
      network?_singleton (operator?_one c)
    refine ⟨_, operator?_three a b c, ?_⟩
    rw [network?_append (network?_append hh htoffoli) hh, ← mul_assoc, controlled_z_of_x hc]
  · have hb : b ∉ [a] := by simpa using hab.symm
    have hcx : network? value [.cx c.val b.val] = some (controlled [c] Turn.x b : Module.End ℂ (Register n V)) :=
      network?_singleton (operator?_two c b)
    refine ⟨_, operator?_three a b c, ?_⟩
    have hswap := controlledSwap_of_x (V := V) hbc.symm hb
    rw [List.singleton_append] at hswap
    rw [network?_append (network?_append hcx htoffoli) hcx, ← mul_assoc, hswap]

/-- The gates that are taken apart and those that take their place. -/
def reductionNames : List String := decomposed ++ ["h", "t", "tdg", "cx"]

theorem name_mem_reductionNames {j : Instruction α} (h : decomposition? i = some js) (hj : j ∈ js) :
    j.name ∈ reductionNames := by
  have hall : js.all (reductionNames.contains ·.name) := by
    obtain ⟨a, b, c, -, hname⟩ := decomposition?_eq_some h
    rcases hname with ⟨-, rfl⟩ | ⟨-, rfl⟩ | ⟨-, rfl⟩
    all_goals rfl
  exact List.contains_iff_mem.mp (List.all_eq_true.mp hall j hj)

/-- Two gates that are taken apart, with a barrier between them. -/
def Circuit.mixing : Circuit Float :=
  (empty "mixing" 3 0).withInstructions [.ccx 0 1 2, .barrier [0, 1, 2], .cswap 2 0 1]

theorem Circuit.wellFormed_mixing : mixing.WellFormed :=
  ⟨by decide, by decide, by decide, by decide, nofun, nofun, nofun⟩

/-- Reduction of wide operations is complete and exact. It succeeds exactly on circuits whose wide operations may stay
or are gates that it takes apart; only what may stay is still wide afterwards; and the circuit is the same linear map
before and after, on the states of any number of qubits, whatever all other instructions mean. -/
theorem reduction_exact {target : Option (Target Float)} {basis : Option BasisGates} {settings : SynthesisSettings}
    {c : Circuit Float} (hc : c.WellFormed) :
    ((∃ out, (Pass.reduceWide target basis settings).run c = .success out) ↔
      ∀ i ∈ c.instructions, 3 ≤ i.width → MayStay (isNative target basis) i ∨ (i.width = 3 ∧ i.name ∈ decomposed)) ∧
    ∀ out, (Pass.reduceWide target basis settings).run c = .success out →
      out.WellFormed ∧ (∀ i ∈ out.instructions, 3 ≤ i.width → MayStay (isNative target basis) i) ∧
      ((∀ i ∈ c.instructions, 3 ≤ i.width → ¬ MayStay (isNative target basis) i → i.clbits = []) →
        ∀ (n : Nat) (V : Type*) [AddCommGroup V] [Module ℂ V] (value : Float → ℝ)
          (other : Instruction Float → Module.End ℂ (Register n V)), c.numQubits ≤ n →
          meaning (interpretation reductionNames value other) out.instructions =
            meaning (interpretation reductionNames value other) c.instructions) := by
  have hrun : (Pass.reduceWide target basis settings).run c =
      .ofInstructions c (reduceWide (isNative target basis) c.instructions) := by
    rw [Pass.run]
  simp only [hrun, Outcome.ofInstructions_eq_success]
  refine ⟨?_, ?_⟩
  · rw [← exists_reduceWide_iff]
    constructor
    · rintro ⟨-, is, his, -⟩
      exact ⟨is, his⟩
    · rintro ⟨is, his⟩
      exact ⟨_, is, his, rfl⟩
  · rintro out ⟨is, his, rfl⟩
    refine ⟨hc.reduceWide his, fun i hi hwide => mayStay_of_mem_reduceWide his hi hwide, ?_⟩
    intro hclbits n V _ _ value other hn
    obtain ⟨blocks, hblocks, rfl⟩ := map_eq_ok.mp his
    refine meaning_flatten_mapM rfl (fun a b c d hab hcd => congrArg₂ (· * ·) hab hcd) hblocks fun i hi gs hgs => ?_
    rcases reduceOne_eq_ok_iff.mp hgs with ⟨rfl, -⟩ | ⟨hwide, hnot, hapart⟩
    · exact one_mul _
    · have hlt : ∀ q ∈ i.qubits, q < n := fun q hq => Nat.lt_of_lt_of_le (hc.qubits_lt i hi q hq) hn
      have hequal : ∃ u : Module.End ℂ (Register n V), operator? value i = some u ∧ network? value gs = some u :=
        network?_decomposition? (hclbits i hi hwide hnot) (hc.qubits_nodup i hi) hlt hapart
      obtain ⟨u, hu, hgates⟩ := hequal
      have hname : i.name ∈ reductionNames :=
        List.mem_append_left _ (exists_decomposition?_iff.mp ⟨gs, hapart⟩).2
      rw [meaning_eq_of_network? (fun j hj => name_mem_reductionNames hapart hj) hgates, interpretation_eq hname hu]

theorem reduction_exact_mixing : Circuit.mixing.WellFormed ∧
    ∃ out, (Pass.reduceWide none none ⟨none, "", .null, .null⟩).run Circuit.mixing = .success out ∧
      (∀ i ∈ out.instructions, 3 ≤ i.width → MayStay (isNative (none : Option (Target Float)) none) i) ∧
      ∀ (value : Float → ℝ) (other : Instruction Float → Module.End ℂ (Register 3 ℂ)),
        meaning (interpretation reductionNames value other) out.instructions =
          meaning (interpretation reductionNames value other) Circuit.mixing.instructions := by
  have haccepted : ∀ i ∈ Circuit.mixing.instructions, 3 ≤ i.width →
      MayStay (isNative (none : Option (Target Float)) none) i ∨ (i.width = 3 ∧ i.name ∈ decomposed) := by
    simp only [MayStay]
    decide
  have hclbits : ∀ i ∈ Circuit.mixing.instructions, i.clbits = [] := by decide
  obtain ⟨hsucceeds, hexact⟩ :=
    @reduction_exact none none ⟨none, "", .null, .null⟩ Circuit.mixing Circuit.wellFormed_mixing
  obtain ⟨out, hout⟩ := hsucceeds.mpr haccepted
  obtain ⟨-, hwide, hmeaning⟩ := hexact out hout
  refine ⟨Circuit.wellFormed_mixing, out, hout, hwide, fun value other => ?_⟩
  exact hmeaning (fun i hi _ _ => hclbits i hi) 3 ℂ value other (Nat.le_refl 3)

end CircuitStages
