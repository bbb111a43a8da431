import CircuitStages.Pass.Basic
import Mathlib.Logic.Basic

namespace CircuitStages

namespace Outcome

variable {c out : Circuit Float}

theorem toExcept_eq_ok {o : Outcome} : o.toExcept = .ok c ↔ o = .success c := by
  obtain ⟨d, e⟩ := o
  cases e <;> simp [toExcept, success]

theorem eq_success_of_not_isFailure {o : Outcome} (h : o.isFailure = false) : o = .success o.circuit := by
  obtain ⟨d, e⟩ := o
  cases e with
  | none => rfl
  | some e => cases h

theorem ofCircuit_eq_success {r : Except CircuitError (Circuit Float)} :
    ofCircuit c r = .success out ↔ r = .ok out := by
  cases r <;> simp [ofCircuit, success, failure]

theorem ofInstructions_eq_success {r : Except CircuitError (List (Instruction Float))} :
    ofInstructions c r = .success out ↔ ∃ is, r = .ok is ∧ c.withInstructions is = out := by
  cases r <;> simp [ofInstructions, success, failure]

theorem ofRoute_eq_success {r : Except CircuitError (RouteState Float)} :
    ofRoute c r = .success out ↔ ∃ s, r = .ok s ∧ c.finishRoute s = out := by
  cases r <;> simp [ofRoute, success, failure]

theorem error_ofRoute {r : Except CircuitError (RouteState Float)} {e : CircuitError} :
    (ofRoute c r).error = some (.circuit e) ↔ r = .error e := by
  cases r <;> simp [ofRoute, success, failure]

end Outcome

theorem Pipeline.apply_eq_ok {ps : Pipeline} {c d : Circuit Float} : ps.apply c = .ok d ↔ ps.run c = .success d :=
  Outcome.toExcept_eq_ok

namespace Pass

variable {p : Pass} {ps : List Pass} {c d : Circuit Float}

theorem runAll_nil_eq_success : runAll [] c = .success d ↔ c = d := by
  simp [runAll, Outcome.success]

/-- A pipeline succeeds if its first pass succeeds or has nothing to do, and the others succeed after it. -/
theorem runAll_cons_eq_success : runAll (p :: ps) c = .success d ↔
    ∃ e, (if p.shouldRun c then p.run c = .success e else c = e) ∧ runAll ps e = .success d := by
  rw [runAll]
  split
  · dsimp only
    split
    next hfail =>
      constructor
      · intro h
        rw [h] at hfail
        cases hfail
      · rintro ⟨e, he, -⟩
        rw [he] at hfail
        cases hfail
    next hok =>
      have hrun := Outcome.eq_success_of_not_isFailure (by simpa using hok)
      constructor
      · intro h
        exact ⟨_, hrun, h⟩
      · rintro ⟨e, he, h⟩
        rw [he]
        exact h
  · simp

theorem runAll_singleton_eq_success :
    runAll [p] c = .success d ↔ if p.shouldRun c then p.run c = .success d else c = d := by
  rw [runAll_cons_eq_success]
  simp only [runAll_nil_eq_success, exists_eq_right]

/-- What every pass keeps, a pipeline keeps, also if it fails. -/
theorem invariant_runAll {P : Circuit Float → Prop} (hps : ∀ p ∈ ps, ∀ c, P c → P (p.run c).circuit) (hc : P c) :
    P (runAll ps c).circuit := by
  induction ps generalizing c with
  | nil =>
    rw [runAll]
    exact hc
  | cons p ps ih =>
    obtain ⟨hp, hrest⟩ := List.forall_mem_cons.mp hps
    rw [runAll]
    split
    · dsimp only
      split
      · exact hp c hc
      · exact ih hrest (hp c hc)
    · exact ih hrest hc

/-- If every pass succeeds on what the passes keep, the pipeline does. -/
theorem exists_runAll_eq_success {P : Circuit Float → Prop}
    (hps : ∀ p ∈ ps, ∀ c, P c → ∃ d, p.run c = .success d ∧ P d) (hc : P c) :
    ∃ d, runAll ps c = .success d ∧ P d := by
  induction ps generalizing c with
  | nil => exact ⟨c, runAll_nil_eq_success.mpr rfl, hc⟩
  | cons p ps ih =>
    obtain ⟨hp, hrest⟩ := List.forall_mem_cons.mp hps
    by_cases hrun : p.shouldRun c
    · obtain ⟨d, hd, hPd⟩ := hp c hc
      obtain ⟨e, he, hPe⟩ := ih hrest hPd
      exact ⟨e, runAll_cons_eq_success.mpr ⟨d, by rwa [if_pos hrun], he⟩, hPe⟩
    · obtain ⟨e, he, hPe⟩ := ih hrest hc
      exact ⟨e, runAll_cons_eq_success.mpr ⟨c, by rw [if_neg hrun], he⟩, hPe⟩

end Pass

theorem invariant_repeatShrinking {P : Circuit Float → Prop} {step : Circuit Float → Outcome}
    (hstep : ∀ c, P c → P (step c).circuit) {rounds : Nat} {c : Circuit Float} (hc : P c) :
    P (repeatShrinking step rounds c).circuit := by
  induction rounds generalizing c with
  | zero => exact hc
  | succ rounds ih =>
    rw [repeatShrinking]
    split
    · exact hstep c hc
    · exact ih (hstep c hc)

theorem exists_repeatShrinking_eq_success {P : Circuit Float → Prop} {step : Circuit Float → Outcome}
    (hstep : ∀ c, P c → ∃ d, step c = .success d ∧ P d) {rounds : Nat} {c : Circuit Float} (hc : P c) :
    ∃ d, repeatShrinking step rounds c = .success d ∧ P d := by
  induction rounds generalizing c with
  | zero => exact ⟨c, rfl, hc⟩
  | succ rounds ih =>
    obtain ⟨d, hd, hPd⟩ := hstep c hc
    rw [repeatShrinking, hd]
    split
    · exact ⟨d, rfl, hPd⟩
    · exact ih hPd

end CircuitStages
