import CircuitStages.Proofs.Meaning.Turns

namespace CircuitStages

open Turn

variable {n : Nat} {V : Type*} [AddCommGroup V] [Module ℂ V] {a b c t : Fin n} {controls : List (Fin n)} {u v w : Turn}

-- One controlled gate.

/-- A gate between two gates that undo each other. -/
theorem controlled_conj (h : t ∉ controls) (huw : u * w = 1) : onQubit u t * controlled controls v t * onQubit w t =
    (controlled controls (u * v * w) t : Module.End ℂ (Register n V)) := by
  nth_rewrite 1 [onQubit]
  rw [onTarget_mul_controlled h, onTarget_mul_onQubit, controlled]
  simp only [mul_ite, ite_mul, mul_one, huw]

theorem controlled_x_of_z (h : t ∉ controls) : onQubit Turn.h t * controlled controls z t * onQubit Turn.h t =
    (controlled controls x t : Module.End ℂ (Register n V)) := by
  rw [controlled_conj h h_mul_h, h_mul_z_mul_h]

theorem controlled_z_of_x (h : t ∉ controls) : onQubit Turn.h t * controlled controls x t * onQubit Turn.h t =
    (controlled controls z t : Module.End ℂ (Register n V)) := by
  rw [controlled_conj h h_mul_h, h_mul_x_mul_h]

theorem controlled_y_of_x (h : t ∉ controls) : onQubit s t * controlled controls x t * onQubit sdg t =
    (controlled controls y t : Module.End ℂ (Register n V)) := by
  rw [controlled_conj h s_mul_sdg, s_mul_x_mul_sdg]

-- Two controlled `x`.

/-- A gate between two controlled `x` is turned around where the controls are one. -/
theorem controlled_x_conj (h : t ∉ controls) (u : Turn) :
    controlled controls x t * onQubit u t * controlled controls x t =
      (onTarget t fun y => if ∀ c ∈ controls, y c = 1 then x * u * x else u : Module.End ℂ (Register n V)) := by
  nth_rewrite 1 [controlled]
  rw [onTarget_mul_onQubit, onTarget_mul_controlled h]
  refine congrArg _ (funext fun y => ?_)
  split
  · rfl
  · rw [one_mul, mul_one]

theorem rzz_of_x (hab : a ≠ b) (θ : ℝ) : controlled [a] x b * onQubit (rz θ) b * controlled [a] x b =
    (chosen a (rz (-θ)) (rz θ) b : Module.End ℂ (Register n V)) := by
  have hb : b ∉ [a] := by simpa using hab.symm
  rw [controlled_x_conj hb, x_mul_rz_mul_x, chosen]
  simp only [List.mem_singleton, forall_eq]

theorem controlled_rz_of_x (h : t ∉ controls) (θ : ℝ) :
    controlled controls x t * onQubit (rz (-θ / 2)) t * controlled controls x t * onQubit (rz (θ / 2)) t =
      (controlled controls (rz θ) t : Module.End ℂ (Register n V)) := by
  rw [controlled_x_conj h, onTarget_mul_onQubit, controlled, x_mul_rz_mul_x, neg_div, neg_neg]
  refine congrArg _ (funext fun y => ?_)
  split
  · rw [rz_mul_rz, add_halves]
  · rw [rz_mul_rz, neg_add_cancel, rz_zero]

theorem p_mul_x_mul_p_mul_x (θ : ℝ) : p θ * (x * p (-θ) * x) = rz (θ + θ) := by
  have hhalf : (θ + θ) / 2 = θ := by ring
  rw [p, p, x_mul_diag_mul_x, mul_eq, rz, hhalf]
  exact eq_of_entries (by ring) (by ring) (by ring) (by ring)

theorem controlled_p_of_x (hab : a ≠ b) (θ : ℝ) :
    onQubit (p (θ / 2)) b * controlled [a] x b * onQubit (p (-θ / 2)) b * controlled [a] x b * onQubit (p (θ / 2)) a =
      (controlled [a] (p θ) b : Module.End ℂ (Register n V)) := by
  have hb : b ∉ [a] := by simpa using hab.symm
  nth_rewrite 1 [onQubit]
  rw [onTarget_mul_controlled hb, onTarget_mul_onQubit, onTarget_mul_controlled hb]
  nth_rewrite 3 [p]
  rw [onTarget_mul_diag hab, controlled]
  refine congrArg _ (funext fun y => ?_)
  simp only [List.mem_singleton, forall_eq]
  split
  · have hturns : p (θ / 2) * x * p (-θ / 2) * x = rz θ := by
      rw [neg_div, mul_assoc, mul_assoc, ← mul_assoc x, p_mul_x_mul_p_mul_x, add_halves]
    rw [hturns, p_eq_rz]
  · rw [mul_one, mul_one, p_mul_p, neg_div, add_neg_cancel, p_zero, one_smul]

-- The network of fifteen gates for two controls.

theorem phase_smul_x_mul_p_mul_x (θ : ℝ) : phase θ • (x * p (-θ) * x) = p θ := by
  rw [p, x_mul_diag_mul_x, smul_eq, p, mul_comm (phase θ), phase_neg_mul, mul_zero, mul_one]

/-- The gates on the controls: a phase that depends on both. -/
theorem toffoli_controls (hab : a ≠ b) (c : Fin n) :
    controlled [a] x b * onQubit tdg b * onQubit Turn.t a * controlled [a] x b =
      (onTarget c fun y => (if y b = 1 then
        if y a = 1 then phase (Real.pi / 4) else phase (-(Real.pi / 4)) else 1) • 1 :
          Module.End ℂ (Register n V)) := by
  have hb : b ∉ [a] := by simpa using hab.symm
  nth_rewrite 1 [controlled]
  -- a diagonal gate on `b` for each value of `a`, so it may be read on the target `c`
  rw [onTarget_mul_onQubit, Turn.t, p, onTarget_mul_diag hab, onTarget_mul_controlled hb, ← onTarget_diag]
  refine congrArg _ (funext fun y => ?_)
  simp only [List.mem_singleton, forall_eq, tdg]
  by_cases hy : y a = 1
  · simp only [hy, if_true, smul_mul_assoc, phase_smul_x_mul_p_mul_x]
    rfl
  · simp only [hy, if_false, one_smul, one_mul, mul_one]
    rfl

theorem t_mul_tdg_mul (u : Turn) : Turn.t * (tdg * u) = u := by
  rw [← mul_assoc, Turn.t, tdg, p_mul_p, add_neg_cancel, p_zero, one_mul]

theorem tdg_mul_t_mul (u : Turn) : tdg * (Turn.t * u) = u := by
  rw [← mul_assoc, Turn.t, tdg, p_mul_p, neg_add_cancel, p_zero, one_mul]

theorem x_mul_x_mul (u : Turn) : x * (x * u) = u := by
  rw [← mul_assoc, x_mul_x, one_mul]

theorem t_mul_x_mul_tdg_mul_x : Turn.t * x * tdg * x = rz (Real.pi / 2) := by
  have hsum : Real.pi / 4 + Real.pi / 4 = Real.pi / 2 := by ring
  rw [Turn.t, tdg, mul_assoc, mul_assoc, ← mul_assoc x, p_mul_x_mul_p_mul_x, hsum]

/-- The gates on the target where both controls are one. -/
theorem toffoli_target :
    Turn.h * Turn.t * x * tdg * x * Turn.t * x * tdg * x * Turn.h = phase (-(Real.pi / 2)) • x := by
  calc Turn.h * Turn.t * x * tdg * x * Turn.t * x * tdg * x * Turn.h
      = Turn.h * ((Turn.t * x * tdg * x) * (Turn.t * x * tdg * x)) * Turn.h := by simp only [mul_assoc]
    _ = Turn.h * rz Real.pi * Turn.h := by rw [t_mul_x_mul_tdg_mul_x, rz_mul_rz, add_halves]
    _ = phase (-(Real.pi / 2)) • x := by rw [h_mul_rz_mul_h, rx_pi]

theorem toffoli_network (hab : a ≠ b) (hac : a ≠ c) (hbc : b ≠ c) :
    controlled [a] x b * onQubit tdg b * onQubit Turn.t a * controlled [a] x b * onQubit Turn.h c * onQubit Turn.t c *
        onQubit Turn.t b * controlled [a] x c * onQubit tdg c * controlled [b] x c * onQubit Turn.t c *
        controlled [a] x c * onQubit tdg c * controlled [b] x c * onQubit Turn.h c =
      (controlled [a, b] x c : Module.End ℂ (Register n V)) := by
  have hca : c ∉ [a] := by simpa using hac.symm
  have hcb : c ∉ [b] := by simpa using hbc.symm
  have ht : onQubit Turn.t b = (onQubit !![1, 0; 0, phase (Real.pi / 4)] b : Module.End ℂ (Register n V)) := rfl
  rw [toffoli_controls hab c, ht]
  simp only [onTarget_mul_onQubit, onTarget_mul_controlled hca, onTarget_mul_controlled hcb, onTarget_mul_diag hbc]
  refine congrArg (onTarget c) (funext fun y => ?_)
  simp only [List.mem_cons, List.not_mem_nil, or_false, forall_eq, forall_eq_or_imp]
  -- what is left are products of matrices, one for each value of the controls
  by_cases hb : y b = 1
  · by_cases ha : y a = 1
    · have hphase : phase (Real.pi / 4) * phase (Real.pi / 4) * phase (-(Real.pi / 2)) = 1 := by
        rw [← phase_add, ← phase_add, ← phase_zero]
        ring_nf
      simp only [ha, hb, and_self, if_true, smul_mul_assoc, one_mul]
      rw [toffoli_target, smul_smul, smul_smul, hphase, one_smul]
    · have hphase : phase (Real.pi / 4) * phase (-(Real.pi / 4)) = 1 := by
        rw [mul_comm, phase_neg_mul]
      simp only [ha, hb, false_and, if_true, if_false, smul_mul_assoc, one_mul, mul_one, mul_assoc, t_mul_tdg_mul,
        x_mul_x_mul, h_mul_h, smul_smul, hphase, one_smul]
  · by_cases ha : y a = 1
    · simp only [ha, hb, and_false, if_true, if_false, one_smul, one_mul, mul_one, mul_assoc, tdg_mul_t_mul,
        x_mul_x_mul, t_mul_tdg_mul, h_mul_h]
    · simp only [ha, hb, and_false, if_false, one_smul, one_mul, mul_one, mul_assoc, t_mul_tdg_mul, h_mul_h]

-- Exchanges of qubits.

/-- A controlled `x` adds its last control to its target where the others are one. -/
theorem controlled_x_eq (controls : List (Fin n)) (s t : Fin n) : controlled (controls ++ [s]) x t =
    (LinearMap.funLeft ℂ V fun y => Function.update y t (y t + if ∀ c ∈ controls, y c = 1 then y s else 0) :
      Module.End ℂ (Register n V)) := by
  rw [x, controlled_not]
  refine congrArg _ (funext fun y => ?_)
  simp only [List.forall_mem_append, List.forall_mem_singleton]
  by_cases hall : ∀ c ∈ controls, y c = 1
  · rw [if_pos hall]
    split
    next hy => rw [hy.2]
    next hy =>
      have hzero : y s = 0 := by
        have hne : y s ≠ 1 := fun h => hy ⟨hall, h⟩
        omega
      rw [hzero, add_zero, Function.update_eq_self]
  · rw [if_neg hall, if_neg (fun h => hall h.1), add_zero, Function.update_eq_self]

/-- An exchange of two qubits by three controlled `x`, of which only the one in the middle needs the other controls. -/
theorem controlledSwap_of_x {s : Fin n} (hst : s ≠ t) (ht : t ∉ controls) :
    controlled [s] x t * controlled (controls ++ [t]) x s * controlled [s] x t =
      (controlledSwap controls t s : Module.End ℂ (Register n V)) := by
  have hadd : controlled [s] x t =
      (LinearMap.funLeft ℂ V fun y => Function.update y t (y t + y s) : Module.End ℂ (Register n V)) := by
    simpa using controlled_x_eq [] s t
  rw [hadd, controlled_x_eq, controlledSwap, Module.End.mul_eq_comp, Module.End.mul_eq_comp, ← LinearMap.funLeft_comp,
    ← LinearMap.funLeft_comp]
  refine congrArg _ (funext fun y => funext fun q => ?_)
  have hcontrols (b : Fin 2) : (∀ c ∈ controls, Function.update y t b c = 1) ↔ ∀ c ∈ controls, y c = 1 := by
    refine forall₂_congr fun c hc => ?_
    rw [Function.update_of_ne (ne_of_mem_of_not_mem hc ht)]
  -- the bit at `t`, at `s` and anywhere else, where the other controls are one or not
  have hbits : ∀ k l : Fin 2, k + l + (l + 0) = k ∧ l + (k + l) = k ∧ k + l + (l + (k + l)) = l := by decide
  obtain ⟨hkeep, hother, htwice⟩ := hbits (y t) (y s)
  obtain rfl | hqt := eq_or_ne q t
  · simp only [Function.comp_apply, hcontrols, Function.update_self, Function.update_of_ne hst,
      Function.update_of_ne hst.symm]
    split
    · rw [htwice, Function.comp_apply, Equiv.swap_apply_left]
    · rw [hkeep]
  · obtain rfl | hqs := eq_or_ne q s
    · simp only [Function.comp_apply, hcontrols, Function.update_self, Function.update_of_ne hst]
      split
      · rw [hother, Function.comp_apply, Equiv.swap_apply_right]
      · rw [add_zero]
    · simp only [Function.comp_apply, Function.update_of_ne hqs, Function.update_of_ne hqt]
      split
      · rw [Function.comp_apply, Equiv.swap_apply_of_ne_of_ne hqt hqs]
      · rfl

theorem swap_of_x (hab : a ≠ b) : controlled [a] x b * controlled [b] x a * controlled [a] x b =
    (controlledSwap [] a b : Module.End ℂ (Register n V)) := by
  have hswap := controlledSwap_of_x (V := V) hab (List.not_mem_nil (a := b))
  rw [List.nil_append] at hswap
  rw [hswap, controlledSwap, controlledSwap, Equiv.swap_comm]

end CircuitStages
