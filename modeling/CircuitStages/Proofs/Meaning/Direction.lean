import CircuitStages.Proofs.Meaning.Controlled
import CircuitStages.Proofs.Meaning.Standard
import CircuitStages.Proofs.Pass.WellFormed

namespace CircuitStages

section Acceptance

variable {α : Type} {supported : String → Nat → Nat → Bool} {i : Instruction α} {is : List (Instruction α)}

/-- Whether a gate on two qubits is available as it is, or the other way round and can be turned. -/
def IsDirectable (supported : String → Nat → Nat → Bool) (name : String) (a b : Nat) : Prop :=
  supported name a b ∨ (supported name b a ∧ (name = "cx" ∨ name ∈ symmetricGates))

theorem exists_directOne_iff : (∃ js, directOne supported i = .ok js) ↔
    ∀ a b, i.link? = some (a, b) → IsDirectable supported i.name a b := by
  simp only [directOne_eq_ok_iff]
  constructor
  · rintro ⟨js, ⟨-, hkeep⟩ | ⟨x, y, hxy, -, hback, hturned⟩⟩ a b hab
    · exact .inl (hkeep a b hab)
    · cases hxy.symm.trans hab
      exact .inr ⟨hback, hturned.imp And.left And.left⟩
  · intro h
    by_cases hkeep : ∀ a b, i.link? = some (a, b) → supported i.name a b
    · exact ⟨[i], .inl ⟨rfl, hkeep⟩⟩
    · push Not at hkeep
      obtain ⟨a, b, hab, hnot⟩ := hkeep
      obtain ⟨hback, hname⟩ := (h a b hab).resolve_left hnot
      rcases hname with hcx | hsymm
      · exact ⟨turnedCx a b, .inr ⟨a, b, hab, hnot, hback, .inl ⟨hcx, rfl⟩⟩⟩
      · exact ⟨[i.onQubits [b, a]], .inr ⟨a, b, hab, hnot, hback, .inr ⟨hsymm, rfl⟩⟩⟩

theorem exists_directGates_iff :
    (∃ js, directGates supported is = .ok js) ↔ AllLinks (IsDirectable supported) is := by
  rw [AllLinks, ← forall₂_congr fun i _ => exists_directOne_iff]
  exact exists_flatten_mapM_eq_ok_iff

end Acceptance

section Networks

open Turn

variable {α : Type} {n : Nat} {V : Type*} [AddCommGroup V] [Module ℂ V] {a b : Fin n} {value : α → ℝ}

theorem onQubit_comm (hab : a ≠ b) (u v : Turn) :
    onQubit u a * onQubit v b = (onQubit v b * onQubit u a : Module.End ℂ (Register n V)) :=
  onTarget_comm hab (fun _ _ => rfl) fun _ _ => rfl

/-- A phase that depends on two bits has no direction if it does not on their order. -/
theorem onTarget_phases_comm (p q r : ℂ) (a b : Fin n) :
    onTarget b (fun x => if x a = 1 then !![q, 0; 0, r] else !![p, 0; 0, q]) =
      (onTarget a fun x => if x b = 1 then !![q, 0; 0, r] else !![p, 0; 0, q] : Module.End ℂ (Register n V)) := by
  have hdiag (c t : Fin n) : onTarget t (fun x => if x c = 1 then !![q, 0; 0, r] else !![p, 0; 0, q]) =
      (onTarget t fun x => !![if x c = 1 then q else p, 0; 0, if x c = 1 then r else q] :
        Module.End ℂ (Register n V)) := by
    refine congrArg (onTarget t) (funext fun x => ?_)
    split <;> rfl
  rw [hdiag a b, hdiag b a, onTarget_diag (t := b), onTarget_diag (t := b)]
  refine congrArg (onTarget b) (funext fun x => ?_)
  split_ifs <;> rfl

theorem controlled_z_comm (a b : Fin n) : controlled [a] z b = (controlled [b] z a : Module.End ℂ (Register n V)) := by
  simp only [controlled, List.mem_singleton, forall_eq, z, Matrix.one_fin_two]
  exact onTarget_phases_comm 1 1 (-1) a b

theorem chosen_rz_comm (θ : ℝ) (a b : Fin n) :
    chosen a (rz (-θ)) (rz θ) b = (chosen b (rz (-θ)) (rz θ) a : Module.End ℂ (Register n V)) := by
  have hneg : -(-θ / 2) = θ / 2 := by ring
  rw [chosen, chosen, rz, rz, hneg, neg_div]
  exact onTarget_phases_comm (phase (-(θ / 2))) (phase (θ / 2)) (phase (-(θ / 2))) a b

/-- A `cx` between Hadamard gates on both qubits goes the other way. -/
theorem turned_network (hab : a ≠ b) :
    onQubit Turn.h b * onQubit Turn.h a * controlled [b] x a * onQubit Turn.h b * onQubit Turn.h a =
      (controlled [a] x b : Module.End ℂ (Register n V)) := by
  have ha : a ∉ [b] := by simpa using hab
  have hb : b ∉ [a] := by simpa using hab.symm
  calc onQubit Turn.h b * onQubit Turn.h a * controlled [b] x a * onQubit Turn.h b * onQubit Turn.h a
      = onQubit Turn.h b * (onQubit Turn.h a * controlled [b] x a * onQubit Turn.h a) * onQubit Turn.h b := by
        -- only the two gates on the right change places, so that those on `a` enclose the `cx`
        rw [mul_assoc _ (onQubit Turn.h b)]
        nth_rewrite 2 [onQubit_comm hab.symm]
        simp only [mul_assoc]
    _ = onQubit Turn.h b * controlled [b] z a * onQubit Turn.h b := by rw [controlled_z_of_x ha]
    _ = onQubit Turn.h b * controlled [a] z b * onQubit Turn.h b := by rw [controlled_z_comm]
    _ = controlled [a] x b := controlled_x_of_z hb

theorem network?_turnedCx (hab : a ≠ b) :
    network? value (turnedCx a b) = some (controlled [a] Turn.x b : Module.End ℂ (Register n V)) := by
  rw [← turned_network hab]
  exact network?_cons (operator?_one a) (network?_cons (operator?_one b) (network?_cons (operator?_two b a)
    (network?_cons (operator?_one a) (network?_singleton (operator?_one b)))))

/-- The standard symmetric gates on two qubits have no direction, those without a standard operator included. -/
theorem pairOperator?_comm {name : String} (h : name ∈ symmetricGates) (angles : List ℝ) (a b : Fin n) :
    pairOperator? name angles a b = (pairOperator? name angles b a : Option (Module.End ℂ (Register n V))) := by
  have hswap : controlledSwap [] a b = (controlledSwap [] b a : Module.End ℂ (Register n V)) := by
    rw [controlledSwap, controlledSwap, Equiv.swap_comm]
  simp only [symmetricGates, List.mem_cons, List.not_mem_nil, or_false] at h
  rcases h with rfl | rfl | rfl | rfl | rfl
  · cases angles with
    | nil => exact congrArg some (controlled_z_comm a b)
    | cons => rfl
  · cases angles with
    | nil => exact congrArg some hswap
    | cons => rfl
  · rcases angles with - | ⟨θ, - | -⟩
    · rfl
    · exact congrArg some (chosen_rz_comm θ a b)
    · rfl
  · rfl
  · rfl

theorem operator?_exchanged {i : Instruction α} {p q : Nat} (h : i.name ∈ symmetricGates)
    (hqubits : i.qubits = [p, q]) :
    operator? value (i.onQubits [q, p]) = (operator? value i : Option (Module.End ℂ (Register n V))) := by
  obtain ⟨name, qubits, clbits, params⟩ := i
  obtain rfl : qubits = [p, q] := hqubits
  by_cases hlt : p < n ∧ q < n
  · obtain ⟨hp, hq⟩ := hlt
    lift p to Fin n using hp
    lift q to Fin n using hq
    have hwires (a b : Fin n) : wires? n [a.val, b.val] = some [a, b] := wires?_map_val [a, b]
    simp only [operator?, Instruction.onQubits, hwires, pairOperator?_comm h _ q p]
  · have hnone (a b : Nat) (hab : ¬ (a < n ∧ b < n)) : wires? n [a, b] = none := by
      by_cases ha : a < n
      · have hb : ¬ b < n := fun hb => hab ⟨ha, hb⟩
        simp [wires?, hb]
      · simp [wires?, ha]
    simp only [operator?, Instruction.onQubits, hnone p q hlt, hnone q p (mt And.symm hlt)]

/-- The gates that direction repair adds. -/
def turningNames : List String := ["h", "cx"]

theorem name_mem_turningNames {a b : Nat} {j : Instruction α} (hj : j ∈ turnedCx a b) : j.name ∈ turningNames := by
  have hall : (turnedCx a b : List (Instruction α)).all (turningNames.contains ·.name) := rfl
  exact List.contains_iff_mem.mp (List.all_eq_true.mp hall j hj)

theorem not_mem_turningNames : ∀ name ∈ symmetricGates, name ∉ turningNames := by
  decide

variable {other : Instruction α → Module.End ℂ (Register n V)}

/-- What takes the place of an instruction means the same. -/
theorem meaning_directOne {supported : String → Nat → Nat → Bool} {i : Instruction α} {js : List (Instruction α)}
    (hnd : i.qubits.Nodup) (hlt : ∀ q ∈ i.qubits, q < n) (hcx : i.name = "cx" → i.clbits = [] ∧ i.params = [])
    (hsymm : i.name ∈ symmetricGates → ∀ a b, i.qubits = [a, b] → other (i.onQubits [b, a]) = other i)
    (h : directOne supported i = .ok js) :
    meaning (interpretation turningNames value other) js = interpretation turningNames value other i := by
  rcases directOne_eq_ok_iff.mp h with ⟨rfl, -⟩ | ⟨a, b, hab, -, -, hturned⟩
  · exact one_mul _
  · obtain ⟨hqubits, -⟩ := Instruction.link?_eq_some_iff.mp hab
    rcases hturned with ⟨hname, rfl⟩ | ⟨hname, rfl⟩
    · obtain ⟨hclbits, hparams⟩ := hcx hname
      obtain ⟨name, qubits, clbits, params⟩ := i
      obtain rfl : name = "cx" := hname
      obtain rfl : qubits = [a, b] := hqubits
      obtain rfl : clbits = [] := hclbits
      obtain rfl : params = [] := hparams
      obtain ⟨ha, hb⟩ : a < n ∧ b < n := by simpa using hlt
      lift a to Fin n using ha
      lift b to Fin n using hb
      have hne : a ≠ b := by simpa [Fin.val_inj] using hnd
      have hname : "cx" ∈ turningNames := by decide
      rw [meaning_eq_of_network? (fun j hj => name_mem_turningNames hj) (network?_turnedCx hne),
        interpretation_eq hname (operator?_two a b)]
    · have hother : i.name ∉ turningNames := not_mem_turningNames i.name hname
      have hturned : (i.onQubits [b, a]).name ∉ turningNames := hother
      rw [meaning, meaning, one_mul, interpretation, interpretation, if_neg hother, if_neg hturned]
      exact hsymm hname a b hqubits

end Networks

variable {target : Option (Target Float)} {map : Option CouplingMap} {c : Circuit Float}

/-- Direction repair is complete and exact. It succeeds exactly on circuits whose gates on two qubits are each available
as they are, or the other way round and turnable; afterwards all of them are available as they are, so that a second run
finds nothing to do; and the circuit is the same linear map before and after, on the states of any number of qubits,
whatever the instructions other than `h` and `cx` mean, as long as the symmetric gates mean the same with their operands
exchanged. -/
theorem direction_exact (hc : c.WellFormed) :
    ((∃ out, (Pass.gateDirection target map).run c = .success out) ↔
      AllLinks (IsDirectable (hasDirection target map)) c.instructions) ∧
    ∀ out, (Pass.gateDirection target map).run c = .success out →
      out.WellFormed ∧ AllLinks (fun name a b => hasDirection target map name a b) out.instructions ∧
      (Pass.gateDirection target map).run out = .success out ∧
      ((∀ i ∈ c.instructions, i.name = "cx" → i.clbits = [] ∧ i.params = []) →
        ∀ (n : Nat) (V : Type*) [AddCommGroup V] [Module ℂ V] (value : Float → ℝ)
          (other : Instruction Float → Module.End ℂ (Register n V)), c.numQubits ≤ n →
          (∀ i ∈ c.instructions, i.name ∈ symmetricGates → ∀ a b, i.qubits = [a, b] →
            other (i.onQubits [b, a]) = other i) →
          meaning (interpretation turningNames value other) out.instructions =
            meaning (interpretation turningNames value other) c.instructions) := by
  have hrun (d : Circuit Float) : (Pass.gateDirection target map).run d =
      .ofInstructions d (directGates (hasDirection target map) d.instructions) := by
    rw [Pass.run]
  simp only [hrun, Outcome.ofInstructions_eq_success]
  constructor
  · rw [← exists_directGates_iff]
    constructor
    · rintro ⟨-, is, his, -⟩
      exact ⟨is, his⟩
    · rintro ⟨is, his⟩
      exact ⟨_, is, his, rfl⟩
  · rintro out ⟨is, his, rfl⟩
    have hlinks : AllLinks (fun name a b => hasDirection target map name a b) is := by
      have hknown : AllLinks (fun _ _ _ => True) c.instructions := fun _ _ _ _ _ => trivial
      exact (hknown.directGates his).imp fun _ _ _ h => h.1
    refine ⟨hc.directGates his, hlinks, ⟨is, directGates_of_supported hlinks, rfl⟩, ?_⟩
    intro hcx n V _ _ value other hn hsymm
    obtain ⟨blocks, hblocks, rfl⟩ := map_eq_ok.mp his
    refine meaning_flatten_mapM rfl (fun a b c d hab hcd => congrArg₂ (· * ·) hab hcd) hblocks fun i hi gs hgs => ?_
    have hlt : ∀ q ∈ i.qubits, q < n := fun q hq => Nat.lt_of_lt_of_le (hc.qubits_lt i hi q hq) hn
    exact meaning_directOne (hc.qubits_nodup i hi) hlt (hcx i hi) (hsymm i hi) hgs

/-- Gates against the direction of a chain, with a turn about both qubits among them and a measurement. -/
def Circuit.upstream : Circuit Float :=
  (empty "upstream" 3 1).withInstructions
    [.h 0, .cx 1 0, .cz 2 1, .gate "rxx" [2, 1] [0.5], .cx 0 1, .measure 0 0]

theorem Circuit.wellFormed_upstream : upstream.WellFormed :=
  ⟨by decide, by decide, by decide, by decide, nofun, nofun, nofun⟩

/-- On a chain that goes one way only, where standard gates act as usual and all else does nothing. -/
theorem direction_exact_upstream : Circuit.upstream.WellFormed ∧
    ∃ out, (Pass.gateDirection none (some (.ofEdges [(0, 1), (1, 2)]))).run Circuit.upstream = .success out ∧
      AllLinks (fun _ a b => (a, b) ∈ [(0, 1), (1, 2)]) out.instructions ∧
      (Pass.gateDirection none (some (.ofEdges [(0, 1), (1, 2)]))).run out = .success out ∧
      ∀ value : Float → ℝ,
        meaning (interpretation turningNames value fun i => (operator? value i).getD 1) out.instructions =
          (meaning (interpretation turningNames value fun i => (operator? value i).getD 1)
            Circuit.upstream.instructions : Module.End ℂ (Register 3 ℂ)) := by
  obtain ⟨hsucceeds, hexact⟩ := @direction_exact none (some (.ofEdges [(0, 1), (1, 2)])) _ Circuit.wellFormed_upstream
  have haccepted : AllLinks (IsDirectable (hasDirection (none : Option (Target Float))
      (some (.ofEdges [(0, 1), (1, 2)])))) Circuit.upstream.instructions :=
    exists_directGates_iff.mp (exists_eq_ok_of_isSome_toOption (by decide))
  obtain ⟨out, hout⟩ := hsucceeds.mpr haccepted
  obtain ⟨-, hlinks, hagain, hmeaning⟩ := hexact out hout
  have hcx : ∀ i ∈ Circuit.upstream.instructions, i.name = "cx" → i.clbits = [] ∧ i.params = [] := by decide
  refine ⟨Circuit.wellFormed_upstream, out, hout, ?_, hagain, fun value => ?_⟩
  · exact hlinks.imp fun _ _ _ h => CouplingMap.mem_of_mem_ofEdges (List.contains_iff_mem.mp h)
  · refine hmeaning hcx 3 ℂ value _ (Nat.le_refl 3) fun i _ hname a b hqubits => ?_
    rw [operator?_exchanged hname hqubits]

end CircuitStages
