import CircuitStages.Proofs.Meaning.Controlled
import CircuitStages.Proofs.Meaning.Standard
import CircuitStages.Proofs.Rewrite.Translation

namespace CircuitStages

open Turn

variable {n : Nat} {V : Type*} [AddCommGroup V] [Module ℂ V] {basis : List String} {r : Rule} {params : List ℝ}

/-- Whether a rule writes a gate as standard gates that are equal to it up to a global phase. -/
def Rule.Sound (n : Nat) (V : Type*) [AddCommGroup V] [Module ℂ V] (r : Rule) : Prop :=
  ∀ i : Instruction ℝ, r.appliesTo i → i.clbits = [] → i.qubits.Nodup → (∀ q ∈ i.qubits, q < n) →
    ∃ u v : Module.End ℂ (Register n V), operator? id i = some u ∧ network? id (r.expand i) = some v ∧ EqUpToPhase v u

def ruleNames : List String := rules.flatMap fun r => r.source :: r.uses

/-- The matrix of a step on a single qubit. -/
noncomputable def stepTurn? (params : List ℝ) (s : RuleStep) : Option Turn :=
  if s.wires = [0] then turn? s.name (s.angles.map (·.eval params)) else none

theorem network?_expand_one {source name : String} {width numParams : Nat} {steps : List RuleStep} {us : List Turn}
    (t : Fin n) (hus : steps.mapM (stepTurn? params) = some us) :
    network? id ((⟨source, width, numParams, steps⟩ : Rule).expand (.gate name [t] params)) =
      some (onQubit (inOrder us) t : Module.End ℂ (Register n V)) := by
  induction steps generalizing us with
  | nil =>
    obtain rfl := Option.some.inj hus
    exact congrArg some (onQubit_one t).symm
  | cons s steps ih =>
    rw [List.mapM_cons, Option.bind_eq_bind, Option.bind_eq_some_iff] at hus
    obtain ⟨u, hu, hus⟩ := hus
    obtain ⟨vs, hvs, hus⟩ := Option.bind_eq_some_iff.mp hus
    obtain rfl := Option.some.inj hus
    rw [stepTurn?] at hu
    split at hu
    next hwires =>
      have hstep : operator? id (.gate s.name (s.wires.map fun w => [t.val].getD w 0) (s.angles.map (·.eval params))) =
          some (onQubit u t : Module.End ℂ (Register n V)) := by
        rw [hwires]
        exact (operator?_one t).trans (by rw [List.map_id, hu]; rfl)
      rw [inOrder_cons, ← onQubit_mul]
      exact network?_cons hstep (ih hvs)
    next => cases hu

/-- A rule on one qubit is sound if its matrices multiply to that of the gate. -/
theorem sound_of_turns (hwidth : r.width = 1)
    (h : ∀ params : List ℝ, params.length = r.numParams → ∃ u us,
      turn? r.source params = some u ∧ r.steps.mapM (stepTurn? params) = some us ∧ EqUpToPhase (inOrder us) u) :
    r.Sound n V := by
  rintro ⟨name, qubits, clbits, params⟩ happlies rfl - hlt
  obtain ⟨rfl, hqubits, hparams⟩ := appliesTo_iff.mp happlies
  obtain ⟨t, rfl⟩ := List.length_eq_one_iff.mp (hqubits.symm.trans hwidth)
  have ht : t < n := by simpa using hlt
  obtain ⟨u, us, hu, hus, z, hz, hphase⟩ := h params hparams.symm
  refine ⟨onQubit u ⟨t, ht⟩, onQubit (inOrder us) ⟨t, ht⟩, ?_, network?_expand_one ⟨t, ht⟩ hus, z, hz, ?_⟩
  · exact (operator?_one ⟨t, ht⟩).trans (by rw [List.map_id, hu]; rfl)
  · rw [hphase, onQubit_smul]

theorem sound_of_turns_fixed {u : Turn} {us : List Turn} (hform : r.width = 1 ∧ r.numParams = 0)
    (hu : turn? r.source [] = some u) (hus : r.steps.mapM (stepTurn? []) = some us) (h : EqUpToPhase (inOrder us) u) :
    r.Sound n V := by
  refine sound_of_turns hform.1 fun params hparams => ?_
  obtain rfl := List.length_eq_zero_iff.mp (hparams.trans hform.2)
  exact ⟨u, us, hu, hus, h⟩

theorem sound_of_turns_angle {u : ℝ → Turn} {us : ℝ → List Turn} (hform : r.width = 1 ∧ r.numParams = 1)
    (hu : ∀ θ, turn? r.source [θ] = some (u θ)) (hus : ∀ θ, r.steps.mapM (stepTurn? [θ]) = some (us θ))
    (h : ∀ θ, EqUpToPhase (inOrder (us θ)) (u θ)) : r.Sound n V := by
  refine sound_of_turns hform.1 fun params hparams => ?_
  obtain ⟨θ, rfl⟩ := List.length_eq_one_iff.mp (hparams.trans hform.2)
  exact ⟨u θ, us θ, hu θ, hus θ, h θ⟩

/-- A rule on two qubits is sound if its operators multiply to that of the gate. -/
theorem sound_of_pairs (hwidth : r.width = 2)
    (h : ∀ (a b : Fin n) (params : List ℝ), a ≠ b → params.length = r.numParams → ∃ u : Module.End ℂ (Register n V),
      pairOperator? r.source params a b = some u ∧ network? id (r.expand (.gate r.source [a, b] params)) = some u) :
    r.Sound n V := by
  rintro ⟨name, qubits, clbits, params⟩ happlies rfl hnd hlt
  obtain ⟨rfl, hqubits, hparams⟩ := appliesTo_iff.mp happlies
  obtain ⟨a, b, rfl⟩ := List.length_eq_two.mp (hqubits.symm.trans hwidth)
  obtain ⟨ha, hb⟩ : a < n ∧ b < n := by simpa using hlt
  have hab : (⟨a, ha⟩ : Fin n) ≠ ⟨b, hb⟩ := by simpa using hnd
  obtain ⟨u, hu, hnetwork⟩ := h ⟨a, ha⟩ ⟨b, hb⟩ params hab hparams.symm
  refine ⟨u, u, ?_, hnetwork, .of_eq rfl⟩
  exact (operator?_two ⟨a, ha⟩ ⟨b, hb⟩).trans (by rw [List.map_id, hu])

/-- Every rule is an equation between gates up to a global phase, for all angles. -/
theorem sound_of_mem_rules : ∀ r ∈ rules, r.Sound n V := by
  simp only [rules, List.forall_mem_cons, List.not_mem_nil, false_implies, implies_true, and_true]
  and_intros
  -- fixed gates on one qubit
  · exact sound_of_turns_fixed (by decide) rfl rfl (.of_eq rfl)
  · exact sound_of_turns_fixed (by decide) rfl rfl (.of_phase _ rz_mul_sx_mul_rz)
  · exact sound_of_turns_fixed (by decide) rfl rfl (.of_eq x_mul_ry_half_pi)
  · exact sound_of_turns_fixed (by decide) rfl rfl (.of_eq u_half_pi)
  · exact sound_of_turns_fixed (by decide) rfl rfl (.of_eq sx_mul_sx)
  · exact sound_of_turns_fixed (by decide) rfl rfl (.of_phase _ rx_pi)
  · exact sound_of_turns_fixed (by decide) rfl rfl (.of_phase _ ry_pi)
  · exact sound_of_turns_fixed (by decide) rfl rfl (.of_phase _ x_mul_rz_pi)
  · exact sound_of_turns_fixed (by decide) rfl rfl (.of_phase _ rz_pi)
  · exact sound_of_turns_fixed (by decide) rfl rfl (.of_phase _ rz_half_pi)
  · exact sound_of_turns_fixed (by decide) rfl rfl (.of_phase _ rz_neg_half_pi)
  · exact sound_of_turns_fixed (by decide) rfl rfl (.of_phase _ rz_quarter_pi)
  · exact sound_of_turns_fixed (by decide) rfl rfl (.of_phase _ rz_neg_quarter_pi)
  · exact sound_of_turns_fixed (by decide) rfl rfl (.of_phase _ rx_half_pi)
  · exact sound_of_turns_fixed (by decide) rfl rfl (.of_phase _ rx_neg_half_pi)
  -- rotations
  · exact sound_of_turns_angle (by decide) (fun _ => rfl) (fun _ => rfl) fun θ => .of_eq (h_mul_rz_mul_h θ)
  · exact sound_of_turns_angle (by decide) (fun _ => rfl) (fun _ => rfl) fun θ => .of_eq (prx_zero θ)
  · exact sound_of_turns_angle (by decide) (fun _ => rfl) (fun _ => rfl) fun θ => .of_eq (s_mul_rx_mul_sdg θ)
  · exact sound_of_turns_angle (by decide) (fun _ => rfl) (fun _ => rfl) fun θ => .of_eq (prx_half_pi θ)
  · exact sound_of_turns_angle (by decide) (fun _ => rfl) (fun _ => rfl) fun θ => .of_phase _ (p_eq_rz θ)
  · exact sound_of_turns_angle (by decide) (fun _ => rfl) (fun _ => rfl) fun θ => .of_eq (rx_mul_ry_mul_rx θ)
  · exact sound_of_turns_angle (by decide) (fun _ => rfl) (fun _ => rfl) fun θ => .of_phase _ (rz_eq_p θ)
  · refine sound_of_turns rfl fun params hparams => ?_
    obtain ⟨θ, φ, ψ, rfl⟩ := List.length_eq_three.mp hparams
    exact ⟨_, _, rfl, rfl, .of_phase _ (rz_mul_ry_mul_rz θ φ ψ)⟩
  · refine sound_of_turns rfl fun params hparams => ?_
    obtain ⟨θ, φ, rfl⟩ := List.length_eq_two.mp hparams
    exact ⟨_, _, rfl, rfl, .of_eq (rz_mul_rx_mul_rz θ φ)⟩
  -- gates on two qubits
  all_goals
    refine sound_of_pairs rfl fun a b params hab hparams => ?_
    have hb : b ∉ [a] := by simpa using hab.symm
  · obtain rfl := List.length_eq_zero_iff.mp hparams
    refine ⟨_, rfl, ?_⟩
    rw [← controlled_x_of_z hb]
    exact network?_cons (operator?_one b) (network?_cons (operator?_two a b) (network?_singleton (operator?_one b)))
  · obtain rfl := List.length_eq_zero_iff.mp hparams
    refine ⟨_, rfl, ?_⟩
    rw [← controlled_z_of_x hb]
    exact network?_cons (operator?_one b) (network?_cons (operator?_two a b) (network?_singleton (operator?_one b)))
  · obtain rfl := List.length_eq_zero_iff.mp hparams
    refine ⟨_, rfl, ?_⟩
    rw [← controlled_y_of_x hb]
    exact network?_cons (operator?_one b) (network?_cons (operator?_two a b) (network?_singleton (operator?_one b)))
  · obtain rfl := List.length_eq_zero_iff.mp hparams
    refine ⟨_, rfl, ?_⟩
    rw [← swap_of_x hab]
    exact network?_cons (operator?_two a b) (network?_cons (operator?_two b a) (network?_singleton (operator?_two a b)))
  · obtain ⟨θ, rfl⟩ := List.length_eq_one_iff.mp hparams
    refine ⟨_, rfl, ?_⟩
    rw [← rzz_of_x hab]
    exact network?_cons (operator?_two a b) (network?_cons (operator?_one b) (network?_singleton (operator?_two a b)))
  · obtain ⟨θ, rfl⟩ := List.length_eq_one_iff.mp hparams
    refine ⟨_, rfl, ?_⟩
    rw [← controlled_p_of_x hab]
    exact network?_cons (operator?_one a) (network?_cons (operator?_two a b) (network?_cons (operator?_one b)
      (network?_cons (operator?_two a b) (network?_singleton (operator?_one b)))))
  · obtain ⟨θ, rfl⟩ := List.length_eq_one_iff.mp hparams
    refine ⟨_, rfl, ?_⟩
    rw [← controlled_rz_of_x hb]
    exact network?_cons (operator?_one b) (network?_cons (operator?_two a b) (network?_cons (operator?_one b)
      (network?_singleton (operator?_two a b))))

variable {other : Instruction ℝ → Module.End ℂ (Register n V)} {levels : Levels} {bound : Nat} {c : Circuit ℝ}
  {i : Instruction ℝ} {is js : List (Instruction ℝ)}

theorem source_mem_ruleNames (hr : r ∈ rules) : r.source ∈ ruleNames :=
  List.mem_flatMap.mpr ⟨r, hr, List.mem_cons_self⟩

theorem name_mem_ruleNames_of_mem_expand {g : Instruction ℝ} (hr : r ∈ rules) (hg : g ∈ r.expand i) :
    g.name ∈ ruleNames :=
  List.mem_flatMap.mpr ⟨r, hr, List.mem_cons_of_mem _ (name_mem_uses_of_mem_expand hg)⟩

theorem eqUpToPhase_one : EqUpToPhase (1 : Module.End ℂ (Register n V)) 1 := .of_eq rfl

/-- An expansion means the same as the gate that it replaces, by induction on the number of nested rules. -/
theorem eqUpToPhase_expandGate (hn : c.numQubits ≤ n) (hi : c.Fits i)
    (hclbits : i.isGate → ¬ basis.contains i.name → i.clbits = []) (h : expandGate basis levels bound i = .ok js) :
    EqUpToPhase (meaning (interpretation ruleNames id other) js) (interpretation ruleNames id other i) := by
  induction bound generalizing i js with
  | zero =>
    rcases expandGate_cases h with ⟨rfl, -⟩ | ⟨k, own, r, gss, hk, -⟩
    · exact .of_eq (one_mul _)
    · cases hk
  | succ bound ih =>
    rcases expandGate_cases h with ⟨rfl, -⟩ | ⟨k, own, r, gss, hk, hgate, hb, hown, hr, hgss, rfl⟩
    · exact .of_eq (one_mul _)
    · cases hk
      obtain ⟨hmem, happlies, -⟩ := ruleFor?_eq_some hr
      have hlt : ∀ q ∈ i.qubits, q < n := fun q hq => Nat.lt_of_lt_of_le (hi.qubits_lt q hq) hn
      have hsound : r.Sound n V := sound_of_mem_rules r hmem
      obtain ⟨u, v, hu, hv, hphase⟩ := hsound i happlies (hclbits hgate hb) hi.qubits_nodup hlt
      have hsteps : EqUpToPhase (meaning (interpretation ruleNames id other) gss.flatten)
          (meaning (interpretation ruleNames id other) (r.expand i)) := by
        refine meaning_flatten_mapM eqUpToPhase_one (fun _ _ _ _ => .mul) hgss fun g hg gs hgs => ?_
        exact ih (fits_of_mem_expand hmem happlies hi hg) (fun _ _ => clbits_of_mem_expand hg) hgs
      -- the steps mean together what the gate does, by the rule
      refine hsteps.trans ?_
      have hname : i.name ∈ ruleNames := (appliesTo_iff.mp happlies).1 ▸ source_mem_ruleNames hmem
      rw [meaning_eq_of_network? (fun g hg => name_mem_ruleNames_of_mem_expand hmem hg) hv, interpretation_eq hname hu]
      exact hphase

/-- Basis translation keeps the meaning of gates. Every rule is an equation between the standard operators up to a
global phase, for all angles and all places of its qubits; and a circuit that is translated means the same before and
after, up to a global phase, whatever all other instructions mean. -/
theorem translation_meaning (n : Nat) (V : Type*) [AddCommGroup V] [Module ℂ V] :
    (∀ r ∈ rules, ∀ i : Instruction ℝ, r.appliesTo i → i.clbits = [] → i.qubits.Nodup → (∀ q ∈ i.qubits, q < n) →
      ∃ u v : Module.End ℂ (Register n V),
        operator? id i = some u ∧ network? id (r.expand i) = some v ∧ EqUpToPhase v u) ∧
    ∀ (basis : List String) (c : Circuit ℝ) (js : List (Instruction ℝ))
      (other : Instruction ℝ → Module.End ℂ (Register n V)), c.WellFormed → c.numQubits ≤ n →
      (∀ i ∈ c.instructions, i.isGate → ¬ basis.contains i.name → i.clbits = []) →
      translateGates basis c.instructions = .ok js →
      EqUpToPhase (meaning (interpretation ruleNames id other) js)
        (meaning (interpretation ruleNames id other) c.instructions) := by
  refine ⟨sound_of_mem_rules, fun basis c js other hc hn hclbits h => ?_⟩
  obtain ⟨blocks, hblocks, rfl⟩ := map_eq_ok.mp h
  refine meaning_flatten_mapM eqUpToPhase_one (fun _ _ _ _ => .mul) hblocks fun i hi gs hgs => ?_
  exact eqUpToPhase_expandGate hn (hc.fits hi) (hclbits i hi) hgs

/-- A GHZ state prepared by turns about axes in the equator and `cz`; the measurements may mean anything. -/
theorem translation_meaning_ghz : ∃ js, translateGates ["cz", "measure", "prx"] (Circuit.ghz 3).instructions = .ok js ∧
    ∀ other : Instruction ℝ → Module.End ℂ (Register 3 ℂ), EqUpToPhase (meaning (interpretation ruleNames id other) js)
      (meaning (interpretation ruleNames id other) (Circuit.ghz 3).instructions) := by
  have htranslatable : ∀ i ∈ (Circuit.ghz 3 : Circuit ℝ).instructions, i.isGate →
      Translatable ["cz", "measure", "prx"] i := by
    decide +kernel
  have hclbits : ∀ i ∈ (Circuit.ghz 3 : Circuit ℝ).instructions, i.isGate →
      ¬ ["cz", "measure", "prx"].contains i.name → i.clbits = [] := by
    decide +kernel
  obtain ⟨js, hjs⟩ := exists_translateGates_iff.mpr htranslatable
  refine ⟨js, hjs, fun other => ?_⟩
  exact (translation_meaning 3 ℂ).2 _ _ js other (Circuit.wellFormed_ghz 3) (Nat.le_refl 3) hclbits hjs

end CircuitStages
