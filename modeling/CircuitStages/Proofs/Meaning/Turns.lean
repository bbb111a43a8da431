import Mathlib.Analysis.SpecialFunctions.Trigonometric.Basic
import CircuitStages.Circuit.Instruction
import CircuitStages.Proofs.Meaning.Register

namespace CircuitStages

open Complex

noncomputable instance : Angle ℝ where
  pi := Real.pi
  half x := x / 2
  negligible x := decide (|x| < 1e-10)

/-- Whether two operators differ by a global phase. -/
def EqUpToPhase {W : Type*} [AddCommGroup W] [Module ℂ W] (a b : W) : Prop := ∃ z : ℂ, ‖z‖ = 1 ∧ a = z • b

namespace EqUpToPhase

variable {W : Type*} [AddCommGroup W] [Module ℂ W] {a b c : W}

theorem of_eq (h : a = b) : EqUpToPhase a b := ⟨1, norm_one, by rw [h, one_smul]⟩

theorem trans (hab : EqUpToPhase a b) (hbc : EqUpToPhase b c) : EqUpToPhase a c := by
  obtain ⟨y, hy, rfl⟩ := hab
  obtain ⟨z, hz, rfl⟩ := hbc
  exact ⟨y * z, by rw [norm_mul, hy, hz, one_mul], smul_smul y z c⟩

theorem mul {a b c d : Module.End ℂ W} (hab : EqUpToPhase a b) (hcd : EqUpToPhase c d) :
    EqUpToPhase (a * c) (b * d) := by
  obtain ⟨y, hy, rfl⟩ := hab
  obtain ⟨z, hz, rfl⟩ := hcd
  exact ⟨y * z, by rw [norm_mul, hy, hz, one_mul], smul_mul_smul_comm y b z d⟩

end EqUpToPhase

/-- The complex number of absolute value one at an angle. -/
noncomputable def phase (x : ℝ) : ℂ := exp (x * I)

theorem phase_add (x y : ℝ) : phase (x + y) = phase x * phase y := by
  rw [phase, phase, phase, ← exp_add, ofReal_add, add_mul]

theorem phase_zero : phase 0 = 1 := by
  rw [phase, ofReal_zero, zero_mul, exp_zero]

theorem phase_pi : phase Real.pi = -1 := exp_pi_mul_I

theorem norm_phase (x : ℝ) : ‖phase x‖ = 1 := norm_exp_ofReal_mul_I x

theorem phase_eq (x : ℝ) : phase x = Real.cos x + Real.sin x * I := by
  rw [phase, exp_mul_I, ofReal_cos, ofReal_sin]

theorem phase_neg_eq (x : ℝ) : phase (-x) = Real.cos x - Real.sin x * I := by
  rw [phase_eq, Real.cos_neg, Real.sin_neg, ofReal_neg, neg_mul, sub_eq_add_neg]

/-- Opposite phases cancel. -/
theorem phase_neg_mul (x : ℝ) : phase (-x) * phase x = 1 := by
  rw [← phase_add, neg_add_cancel, phase_zero]

theorem phase_half_mul (x : ℝ) : phase (x / 2) * phase (x / 2) = phase x := by
  rw [← phase_add, add_halves]

theorem phase_half_pi : phase (Real.pi / 2) = I := by
  rw [phase_eq, Real.cos_pi_div_two, Real.sin_pi_div_two, ofReal_zero, ofReal_one, zero_add, one_mul]

theorem phase_neg_half_pi : phase (-(Real.pi / 2)) = -I := by
  rw [phase_neg_eq, Real.cos_pi_div_two, Real.sin_pi_div_two, ofReal_zero, ofReal_one, zero_sub, one_mul]

theorem EqUpToPhase.of_phase {W : Type*} [AddCommGroup W] [Module ℂ W] {a b : W} (x : ℝ) (h : a = phase x • b) :
    EqUpToPhase a b :=
  ⟨phase x, norm_phase x, h⟩

/-- Half of the square root of two, the amplitude of an even mixture. -/
noncomputable def evenly : ℂ := (√2 / 2 : ℝ)

theorem evenly_mul_evenly : evenly * evenly = 1 / 2 := by
  have hsquare : √2 / 2 * (√2 / 2) = (1 / 2 : ℝ) := by
    rw [div_mul_div_comm, Real.mul_self_sqrt (by norm_num)]
    norm_num
  rw [evenly, ← ofReal_mul, hsquare]
  norm_num

theorem phase_quarter_pi : phase (Real.pi / 4) = evenly * (1 + I) := by
  rw [phase_eq, Real.cos_pi_div_four, Real.sin_pi_div_four, evenly]
  ring

theorem phase_neg_quarter_pi : phase (-(Real.pi / 4)) = evenly * (1 - I) := by
  rw [phase_neg_eq, Real.cos_pi_div_four, Real.sin_pi_div_four, evenly]
  ring

namespace Turn

noncomputable def h : Turn := evenly • !![1, 1; 1, -1]

def x : Turn := !![0, 1; 1, 0]

def y : Turn := !![0, -I; I, 0]

def z : Turn := !![1, 0; 0, -1]

noncomputable def p (angle : ℝ) : Turn := !![1, 0; 0, phase angle]

noncomputable def s : Turn := !![1, 0; 0, I]

noncomputable def sdg : Turn := !![1, 0; 0, -I]

noncomputable def t : Turn := p (Real.pi / 4)

noncomputable def tdg : Turn := p (-(Real.pi / 4))

noncomputable def sx : Turn := (1 / 2 : ℂ) • !![1 + I, 1 - I; 1 - I, 1 + I]

noncomputable def sxdg : Turn := (1 / 2 : ℂ) • !![1 - I, 1 + I; 1 + I, 1 - I]

noncomputable def rx (angle : ℝ) : Turn :=
  !![(Real.cos (angle / 2) : ℂ), -(I * Real.sin (angle / 2)); -(I * Real.sin (angle / 2)), (Real.cos (angle / 2) : ℂ)]

noncomputable def ry (angle : ℝ) : Turn :=
  !![(Real.cos (angle / 2) : ℂ), -(Real.sin (angle / 2) : ℂ); (Real.sin (angle / 2) : ℂ), (Real.cos (angle / 2) : ℂ)]

noncomputable def rz (angle : ℝ) : Turn := !![phase (-(angle / 2)), 0; 0, phase (angle / 2)]

noncomputable def u (polar first last : ℝ) : Turn :=
  !![(Real.cos (polar / 2) : ℂ), -(phase last * Real.sin (polar / 2));
    phase first * Real.sin (polar / 2), phase (first + last) * Real.cos (polar / 2)]

/-- A turn about an axis in the equator. -/
noncomputable def prx (angle axis : ℝ) : Turn :=
  !![(Real.cos (angle / 2) : ℂ), -(I * phase (-axis) * Real.sin (angle / 2));
    -(I * phase axis * Real.sin (angle / 2)), (Real.cos (angle / 2) : ℂ)]

variable {a b c d a' b' c' d' : ℂ}

/-- The product of matrices, the first of which is applied first. -/
def inOrder : List Turn → Turn
  | [] => 1
  | [u] => u
  | u :: v :: us => inOrder (v :: us) * u

theorem inOrder_cons (u : Turn) (us : List Turn) : inOrder (u :: us) = inOrder us * u := by
  cases us with
  | nil => rw [inOrder, inOrder, one_mul]
  | cons v us => rw [inOrder]

theorem eq_of_entries (ha : a = a') (hb : b = b') (hc : c = c') (hd : d = d') :
    (!![a, b; c, d] : Turn) = !![a', b'; c', d'] := by
  rw [ha, hb, hc, hd]

theorem mul_eq : (!![a, b; c, d] * !![a', b'; c', d'] : Turn) =
    !![a * a' + b * c', a * b' + b * d'; c * a' + d * c', c * b' + d * d'] := Matrix.mul_fin_two ..

theorem smul_eq (z : ℂ) : (z • !![a, b; c, d] : Turn) = !![z * a, z * b; z * c, z * d] := by
  simp only [Matrix.smul_of, Matrix.smul_cons, Matrix.smul_empty, smul_eq_mul]

-- What Hadamard gates and `x` do to the gates that they are put around.

theorem h_mul_h : h * h = 1 := by
  rw [h, smul_mul_smul_comm, evenly_mul_evenly, mul_eq, smul_eq, Matrix.one_fin_two]
  norm_num

theorem h_mul_diag_mul_h : h * !![a, 0; 0, b] * h = (1 / 2 : ℂ) • !![a + b, a - b; a - b, a + b] := by
  rw [h, smul_mul_assoc, smul_mul_smul_comm, evenly_mul_evenly, mul_eq, mul_eq]
  exact congrArg _ (eq_of_entries (by ring) (by ring) (by ring) (by ring))

theorem h_mul_z_mul_h : h * z * h = x := by
  rw [z, h_mul_diag_mul_h, smul_eq, x]
  norm_num

theorem h_mul_x_mul_h : h * x * h = z := by
  calc h * x * h = h * (h * z * h) * h := by rw [h_mul_z_mul_h]
    _ = h * h * z * (h * h) := by simp only [mul_assoc]
    _ = z := by rw [h_mul_h, one_mul, mul_one]

theorem x_mul_x : x * x = 1 := by
  rw [x, mul_eq, Matrix.one_fin_two]
  norm_num

theorem x_mul_diag_mul_x : x * !![a, 0; 0, b] * x = !![b, 0; 0, a] := by
  rw [x, mul_eq, mul_eq]
  exact eq_of_entries (by ring) (by ring) (by ring) (by ring)

-- Turns about the axis `z`.

theorem z_eq_p : z = p Real.pi := by
  rw [z, p, phase_pi]

theorem s_eq_p : s = p (Real.pi / 2) := by
  rw [s, p, phase_half_pi]

theorem sdg_eq_p : sdg = p (-(Real.pi / 2)) := by
  rw [sdg, p, phase_neg_half_pi]

theorem p_zero : p 0 = 1 := by
  rw [p, phase_zero, Matrix.one_fin_two]

theorem p_mul_p (α β : ℝ) : p α * p β = p (α + β) := by
  rw [p, p, p, mul_eq, phase_add]
  exact eq_of_entries (by ring) (by ring) (by ring) (by ring)

theorem rz_zero : rz 0 = 1 := by
  rw [rz, zero_div, neg_zero, phase_zero, Matrix.one_fin_two]

theorem rz_mul_rz (α β : ℝ) : rz α * rz β = rz (α + β) := by
  rw [rz, rz, rz, mul_eq, add_div, neg_add, phase_add, phase_add]
  exact eq_of_entries (by ring) (by ring) (by ring) (by ring)

theorem x_mul_rz_mul_x (θ : ℝ) : x * rz θ * x = rz (-θ) := by
  rw [rz, x_mul_diag_mul_x, rz, neg_div, neg_neg]

theorem rz_eq_p (θ : ℝ) : rz θ = phase (-(θ / 2)) • p θ := by
  rw [rz, p, smul_eq, ← phase_half_mul θ, ← mul_assoc, phase_neg_mul]
  exact eq_of_entries (by ring) (by ring) (by ring) (by ring)

theorem p_eq_rz (θ : ℝ) : p θ = phase (θ / 2) • rz θ := by
  rw [rz, p, smul_eq, phase_half_mul, mul_comm, phase_neg_mul]
  exact eq_of_entries (by ring) (by ring) (by ring) (by ring)

theorem rz_pi : rz Real.pi = phase (-(Real.pi / 2)) • z := by
  rw [z_eq_p, rz_eq_p]

theorem rz_half_pi : rz (Real.pi / 2) = phase (-(Real.pi / 2 / 2)) • s := by
  rw [s_eq_p, rz_eq_p]

theorem rz_neg_half_pi : rz (-(Real.pi / 2)) = phase (-(-(Real.pi / 2) / 2)) • sdg := by
  rw [sdg_eq_p, rz_eq_p]

theorem rz_quarter_pi : rz (Real.pi / 2 / 2) = phase (-(Real.pi / 2 / 2 / 2)) • t := by
  have hquarter : Real.pi / 2 / 2 = Real.pi / 4 := by ring
  rw [rz_eq_p, t, hquarter]

theorem rz_neg_quarter_pi : rz (-(Real.pi / 2 / 2)) = phase (-(-(Real.pi / 2 / 2) / 2)) • tdg := by
  have hquarter : Real.pi / 2 / 2 = Real.pi / 4 := by ring
  rw [rz_eq_p, tdg, hquarter]

-- Turns about other axes.

theorem h_mul_rz_mul_h (θ : ℝ) : h * rz θ * h = rx θ := by
  rw [rz, h_mul_diag_mul_h, smul_eq, rx, phase_neg_eq, phase_eq]
  exact eq_of_entries (by ring) (by ring) (by ring) (by ring)

theorem s_mul_rx_mul_sdg (θ : ℝ) : s * rx θ * sdg = ry θ := by
  rw [s, rx, sdg, ry, mul_eq, mul_eq]
  refine eq_of_entries ?_ ?_ ?_ ?_
  all_goals ring_nf
  all_goals simp only [I_sq]
  all_goals ring

theorem s_mul_x_mul_sdg : s * x * sdg = y := by
  rw [s, x, sdg, y, mul_eq, mul_eq]
  exact eq_of_entries (by ring) (by ring) (by ring) (by ring)

theorem s_mul_sdg : s * sdg = 1 := by
  rw [s_eq_p, sdg_eq_p, p_mul_p, add_neg_cancel, p_zero]

theorem prx_zero (θ : ℝ) : prx θ 0 = rx θ := by
  rw [prx, rx, neg_zero, phase_zero, mul_one]

theorem prx_half_pi (θ : ℝ) : prx θ (Real.pi / 2) = ry θ := by
  rw [prx, ry, phase_half_pi, phase_neg_half_pi]
  refine eq_of_entries rfl ?_ ?_ rfl
  · rw [mul_neg, I_mul_I, neg_neg, one_mul]
  · rw [I_mul_I, neg_mul, neg_neg, one_mul]

theorem rz_mul_rx_mul_rz (θ φ : ℝ) : rz φ * rx θ * rz (-φ) = prx θ φ := by
  rw [rz, rx, rz, prx, mul_eq, mul_eq, neg_div, neg_neg, ← phase_half_mul φ, ← phase_half_mul (-φ), neg_div]
  have hcancel := phase_neg_mul (φ / 2)
  refine eq_of_entries ?_ ?_ ?_ ?_
  · linear_combination (Real.cos (θ / 2) : ℂ) * hcancel
  · ring
  · ring
  · linear_combination (Real.cos (θ / 2) : ℂ) * hcancel

theorem rz_mul_ry_mul_rz (θ φ ψ : ℝ) : rz φ * ry θ * rz ψ = phase (-((φ + ψ) / 2)) • u θ φ ψ := by
  have hsum : phase (-((φ + ψ) / 2)) = phase (-(φ / 2)) * phase (-(ψ / 2)) := by rw [← phase_add, ← neg_add, add_div]
  have hφ : phase (-(φ / 2)) * phase φ = phase (φ / 2) := by rw [← phase_add]; ring_nf
  have hψ : phase (-(ψ / 2)) * phase ψ = phase (ψ / 2) := by rw [← phase_add]; ring_nf
  rw [rz, ry, rz, u, mul_eq, mul_eq, smul_eq, hsum, phase_add, ← hφ, ← hψ]
  exact eq_of_entries (by ring) (by ring) (by ring) (by ring)

-- Turns by fixed angles.

theorem cos_half_half_pi : (Real.cos (Real.pi / 2 / 2) : ℂ) = evenly := by
  rw [div_div, (by norm_num : (2 * 2 : ℝ) = 4), Real.cos_pi_div_four, evenly]

theorem sin_half_half_pi : (Real.sin (Real.pi / 2 / 2) : ℂ) = evenly := by
  rw [div_div, (by norm_num : (2 * 2 : ℝ) = 4), Real.sin_pi_div_four, evenly]

theorem rx_half_pi_eq : rx (Real.pi / 2) = evenly • !![1, -I; -I, 1] := by
  rw [rx, cos_half_half_pi, sin_half_half_pi, smul_eq]
  exact eq_of_entries (by ring) (by ring) (by ring) (by ring)

theorem rx_neg_half_pi_eq : rx (-(Real.pi / 2)) = evenly • !![1, I; I, 1] := by
  rw [rx, neg_div, Real.cos_neg, Real.sin_neg, ofReal_neg, cos_half_half_pi, sin_half_half_pi, smul_eq]
  exact eq_of_entries (by ring) (by ring) (by ring) (by ring)

theorem rz_half_pi_eq : rz (Real.pi / 2) = evenly • !![1 - I, 0; 0, 1 + I] := by
  rw [rz, div_div, (by norm_num : (2 * 2 : ℝ) = 4), phase_quarter_pi, phase_neg_quarter_pi, smul_eq, mul_zero]

theorem x_mul_ry_half_pi : x * ry (Real.pi / 2) = h := by
  rw [x, ry, cos_half_half_pi, sin_half_half_pi, mul_eq, h, smul_eq]
  exact eq_of_entries (by ring) (by ring) (by ring) (by ring)

theorem u_half_pi : u (Real.pi / 2) 0 Real.pi = h := by
  rw [u, cos_half_half_pi, sin_half_half_pi, phase_zero, zero_add, phase_pi, h, smul_eq]
  exact eq_of_entries (by ring) (by ring) (by ring) (by ring)

theorem sx_mul_sx : sx * sx = x := by
  rw [sx, smul_mul_smul_comm, mul_eq, smul_eq, x]
  refine eq_of_entries ?_ ?_ ?_ ?_
  · linear_combination (1 / 2 : ℂ) * I_sq
  · linear_combination (-1 / 2 : ℂ) * I_sq
  · linear_combination (-1 / 2 : ℂ) * I_sq
  · linear_combination (1 / 2 : ℂ) * I_sq

theorem rz_mul_sx_mul_rz : rz (Real.pi / 2) * sx * rz (Real.pi / 2) = phase (-(Real.pi / 4)) • h := by
  rw [rz_half_pi_eq, sx, h, phase_neg_quarter_pi, smul_mul_smul_comm, smul_mul_smul_comm, smul_smul,
    mul_right_comm _ (1 / 2 : ℂ), mul_right_comm _ (1 - I), evenly_mul_evenly, mul_eq, mul_eq, smul_eq, smul_eq]
  refine eq_of_entries ?_ ?_ ?_ ?_
  · linear_combination (-(1 - I) / 4) * I_sq
  · linear_combination (-(1 - I) / 4) * I_sq
  · linear_combination (-(1 - I) / 4) * I_sq
  · linear_combination ((3 + I) / 4) * I_sq

theorem rx_pi : rx Real.pi = phase (-(Real.pi / 2)) • x := by
  rw [rx, Real.cos_pi_div_two, Real.sin_pi_div_two, ofReal_zero, ofReal_one, phase_neg_half_pi, x, smul_eq]
  exact eq_of_entries (by ring) (by ring) (by ring) (by ring)

theorem ry_pi : ry Real.pi = phase (-(Real.pi / 2)) • y := by
  rw [ry, Real.cos_pi_div_two, Real.sin_pi_div_two, ofReal_zero, ofReal_one, phase_neg_half_pi, y, smul_eq]
  refine eq_of_entries ?_ ?_ ?_ ?_
  all_goals simp [← sq]

theorem x_mul_rz_pi : x * rz Real.pi = phase Real.pi • y := by
  rw [x, rz, phase_half_pi, phase_neg_half_pi, mul_eq, phase_pi, y, smul_eq]
  exact eq_of_entries (by ring) (by ring) (by ring) (by ring)

theorem rx_half_pi : rx (Real.pi / 2) = phase (-(Real.pi / 4)) • sx := by
  rw [rx_half_pi_eq, phase_neg_quarter_pi, sx, smul_smul, smul_eq, smul_eq]
  refine eq_of_entries ?_ ?_ ?_ ?_
  · linear_combination (evenly / 2) * I_sq
  · linear_combination (-evenly / 2) * I_sq
  · linear_combination (-evenly / 2) * I_sq
  · linear_combination (evenly / 2) * I_sq

theorem rx_neg_half_pi : rx (-(Real.pi / 2)) = phase (Real.pi / 4) • sxdg := by
  rw [rx_neg_half_pi_eq, phase_quarter_pi, sxdg, smul_smul, smul_eq, smul_eq]
  refine eq_of_entries ?_ ?_ ?_ ?_
  · linear_combination (evenly / 2) * I_sq
  · linear_combination (-evenly / 2) * I_sq
  · linear_combination (-evenly / 2) * I_sq
  · linear_combination (evenly / 2) * I_sq

theorem rx_mul_ry_mul_rx (θ : ℝ) : rx (Real.pi / 2) * ry θ * rx (-(Real.pi / 2)) = rz θ := by
  rw [rx_half_pi_eq, rx_neg_half_pi_eq, smul_mul_assoc, smul_mul_smul_comm, evenly_mul_evenly, ry, mul_eq, mul_eq,
    smul_eq, rz, phase_neg_eq, phase_eq]
  refine eq_of_entries ?_ ?_ ?_ ?_
  · linear_combination (-(Real.cos (θ / 2) : ℂ) / 2) * I_sq
  · linear_combination (-(Real.sin (θ / 2) : ℂ) / 2) * I_sq
  · linear_combination ((Real.sin (θ / 2) : ℂ) / 2) * I_sq
  · linear_combination (-(Real.cos (θ / 2) : ℂ) / 2) * I_sq

end Turn

end CircuitStages
