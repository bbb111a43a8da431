import Mathlib.Algebra.Module.BigOperators
import Mathlib.Algebra.Module.LinearMap.End
import Mathlib.Data.Complex.Basic
import Mathlib.LinearAlgebra.Matrix.Notation
import Mathlib.LinearAlgebra.Pi

namespace CircuitStages

/-- States of `n` qubits: an amplitude for each assignment of bits. Amplitudes may be complex numbers or any vectors
over them, so that a state can go together with a record of classical bits. -/
abbrev Register (n : Nat) (V : Type*) := (Fin n → Fin 2) → V

/-- Matrices of gates on one qubit. -/
abbrev Turn := Matrix (Fin 2) (Fin 2) ℂ

variable {n : Nat} {V : Type*} [AddCommGroup V] [Module ℂ V]

/-- The gate that turns the target by a matrix, which may depend on the other qubits. -/
def onTarget (t : Fin n) (u : (Fin n → Fin 2) → Turn) : Module.End ℂ (Register n V) where
  toFun ψ x := ∑ b, u x (x t) b • ψ (Function.update x t b)
  map_add' φ ψ := by
    funext x
    simp only [Pi.add_apply, smul_add, Finset.sum_add_distrib]
  map_smul' z ψ := by
    funext x
    simp only [Pi.smul_apply, RingHom.id_apply, Finset.smul_sum, smul_comm z]

theorem onTarget_apply (t : Fin n) (u : (Fin n → Fin 2) → Turn) (ψ : Register n V) (x : Fin n → Fin 2) :
    onTarget t u ψ x = ∑ b, u x (x t) b • ψ (Function.update x t b) := rfl

def onQubit (u : Turn) (t : Fin n) : Module.End ℂ (Register n V) := onTarget t fun _ => u

/-- A gate on one qubit that acts where all the controls are one. -/
def controlled (controls : List (Fin n)) (u : Turn) (t : Fin n) : Module.End ℂ (Register n V) :=
  onTarget t fun x => if ∀ c ∈ controls, x c = 1 then u else 1

/-- The gate that turns the target by one matrix where another qubit is one, and by another matrix elsewhere. -/
def chosen (a : Fin n) (u v : Turn) (t : Fin n) : Module.End ℂ (Register n V) :=
  onTarget t fun x => if x a = 1 then u else v

/-- The exchange of two qubits where all the controls are one. -/
def controlledSwap (controls : List (Fin n)) (a b : Fin n) : Module.End ℂ (Register n V) :=
  LinearMap.funLeft ℂ V fun x => if ∀ c ∈ controls, x c = 1 then x ∘ Equiv.swap a b else x

variable {s t : Fin n} {u v : (Fin n → Fin 2) → Turn}

/-- Whether a choice does not look at a qubit. -/
def Ignores (t : Fin n) (v : (Fin n → Fin 2) → Turn) : Prop := ∀ x b, v (Function.update x t b) = v x

theorem onTarget_mul (hv : Ignores t v) :
    onTarget t u * onTarget t v = (onTarget t fun x => u x * v x : Module.End ℂ (Register n V)) := by
  refine LinearMap.ext fun ψ => funext fun x => ?_
  rw [Module.End.mul_apply]
  simp only [onTarget_apply, Function.update_self, Function.update_idem, hv x, Matrix.mul_apply, Finset.smul_sum,
    Finset.sum_smul, smul_smul]
  exact Finset.sum_comm

/-- Gates on two targets commute if neither looks at the target of the other. -/
theorem onTarget_comm (hst : s ≠ t) (hu : Ignores t u) (hv : Ignores s v) :
    onTarget s u * onTarget t v = (onTarget t v * onTarget s u : Module.End ℂ (Register n V)) := by
  refine LinearMap.ext fun ψ => funext fun x => ?_
  simp only [Module.End.mul_apply, onTarget_apply, hu x, hv x, Function.update_of_ne hst,
    Function.update_of_ne hst.symm, Finset.smul_sum]
  rw [Finset.sum_comm]
  refine Finset.sum_congr rfl fun b _ => Finset.sum_congr rfl fun d _ => ?_
  rw [smul_comm, Function.update_comm hst]

theorem onTarget_one : onTarget t (fun _ => 1) = (1 : Module.End ℂ (Register n V)) := by
  refine LinearMap.ext fun ψ => funext fun x => ?_
  simp [onTarget_apply, Matrix.one_apply]

theorem onTarget_smul (z : ℂ) : onTarget t (fun x => z • u x) = (z • onTarget t u : Module.End ℂ (Register n V)) := by
  refine LinearMap.ext fun ψ => funext fun x => ?_
  simp [onTarget_apply, smul_smul]

theorem onQubit_one (t : Fin n) : onQubit 1 t = (1 : Module.End ℂ (Register n V)) := onTarget_one

theorem onQubit_smul (z : ℂ) (u : Turn) (t : Fin n) :
    onQubit (z • u) t = (z • onQubit u t : Module.End ℂ (Register n V)) := onTarget_smul z

theorem onQubit_mul (u v : Turn) (t : Fin n) :
    onQubit u t * onQubit v t = (onQubit (u * v) t : Module.End ℂ (Register n V)) :=
  onTarget_mul fun _ _ => rfl

/-- A diagonal gate multiplies by phases, so any qubit can be taken for its target. -/
theorem onTarget_diag (p q : (Fin n → Fin 2) → ℂ) (s t : Fin n) : onTarget s (fun x => !![p x, 0; 0, q x]) =
    (onTarget t fun x => (if x s = 1 then q x else p x) • 1 : Module.End ℂ (Register n V)) := by
  refine LinearMap.ext fun ψ => funext fun x => ?_
  obtain hx | hx : x s = 0 ∨ x s = 1 := by omega
  · have hsame : Function.update x s 0 = x := by rw [← hx, Function.update_eq_self]
    simp [onTarget_apply, Matrix.one_apply, Fin.sum_univ_two, hx, hsame]
  · have hsame : Function.update x s 1 = x := by rw [← hx, Function.update_eq_self]
    simp [onTarget_apply, Matrix.one_apply, Fin.sum_univ_two, hx, hsame]

-- Gates on the right of a gate: on the same target, or diagonal and anywhere else.

theorem onTarget_mul_onQubit (w : Turn) :
    onTarget t u * onQubit w t = (onTarget t fun x => u x * w : Module.End ℂ (Register n V)) :=
  onTarget_mul fun _ _ => rfl

theorem onTarget_mul_controlled {controls : List (Fin n)} (h : t ∉ controls) (w : Turn) :
    onTarget t u * controlled controls w t =
      (onTarget t fun x => u x * if ∀ c ∈ controls, x c = 1 then w else 1 : Module.End ℂ (Register n V)) := by
  refine onTarget_mul fun x b => ?_
  have hsame : ∀ c ∈ controls, Function.update x t b c = x c := by
    intro c hc
    exact Function.update_of_ne (ne_of_mem_of_not_mem hc h) b x
  simp +contextual only [hsame]

theorem onTarget_mul_diag (hst : s ≠ t) (p q : ℂ) : onTarget t u * onQubit !![p, 0; 0, q] s =
    (onTarget t fun x => (if x s = 1 then q else p) • u x : Module.End ℂ (Register n V)) := by
  have hdiag : onQubit !![p, 0; 0, q] s =
      (onTarget t fun x => (if x s = 1 then q else p) • 1 : Module.End ℂ (Register n V)) :=
    onTarget_diag (fun _ => p) (fun _ => q) s t
  rw [hdiag, onTarget_mul]
  · simp only [mul_smul_comm, mul_one]
  · intro x b
    simp only [Function.update_of_ne hst]

/-- A controlled `x` exchanges basis states. -/
theorem controlled_not (controls : List (Fin n)) (t : Fin n) : controlled controls !![0, 1; 1, 0] t =
    (LinearMap.funLeft ℂ V fun x => if ∀ c ∈ controls, x c = 1 then Function.update x t (x t + 1) else x :
      Module.End ℂ (Register n V)) := by
  refine LinearMap.ext fun ψ => funext fun x => ?_
  rw [controlled, onTarget_apply, LinearMap.funLeft_apply]
  split
  · obtain hx | hx : x t = 0 ∨ x t = 1 := by omega
    · simp [hx, Fin.sum_univ_two]
    · simp [hx, Fin.sum_univ_two]
  · simp [Matrix.one_apply]

end CircuitStages
