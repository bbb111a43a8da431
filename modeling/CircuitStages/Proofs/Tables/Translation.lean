import CircuitStages.Proofs.Rewrite.Translation
import CircuitStages.Proofs.Tables.Basic

namespace CircuitStages

variable {α : Type} [Angle α] {i : Instruction α} {r : Rule} {basis : List String} {is : List (Instruction α)}

/-- The value of an angle, unless it refers to a parameter that is not there. -/
def AngleTerm.evalChecked? (params : List α) : AngleTerm → Option α
  | zero => some 0
  | pi => some Angle.pi
  | param index => params[index]?
  | half a => (a.evalChecked? params).map Angle.half
  | neg a => (a.evalChecked? params).map (-·)

/-- Whether an angle only refers to the first parameters. -/
def AngleTerm.refersBelow (numParams : Nat) : AngleTerm → Bool
  | zero | pi => true
  | param index => index < numParams
  | half a | neg a => a.refersBelow numParams

/-- What a rule writes for a gate, unless it names an operand or a parameter that the gate lacks. -/
def Rule.expandChecked? (r : Rule) (i : Instruction α) : Option (List (Instruction α)) := r.steps.mapM fun s => do
  let qubits ← s.wires.mapM (i.qubits[·]?)
  let params ← s.angles.mapM (·.evalChecked? i.params)
  pure (.gate s.name qubits params)

def expandGateChecked (basis : List String) (levels : Levels) :
    Nat → Instruction α → Checked CircuitError (List (Instruction α))
  | bound, i =>
    if !i.isGate || basis.contains i.name then pure [i]
    else
      match level? basis levels i.name, bound with
      | some own, bound + 1 =>
        match ruleFor? basis levels own i with
        | some rule => do
          let steps ← rule.expandChecked? i
          List.flatten <$> steps.mapM (expandGateChecked basis levels bound)
        | none => throw (.notInBasis i.name)
      | _, _ => throw (.notInBasis i.name)

def translateChecked (basis : List String) (is : List (Instruction α)) :
    Checked CircuitError (List (Instruction α)) :=
  let levels := gateLevels basis
  List.flatten <$> is.mapM fun i => expandGateChecked basis levels ((level? basis levels i.name).getD 0) i

theorem refersBelow_of_step : ∀ r ∈ rules, ∀ s ∈ r.steps, ∀ a ∈ s.angles, a.refersBelow r.numParams := by
  decide +kernel

theorem evalChecked?_eq {params : List α} {a : AngleTerm} (h : a.refersBelow params.length) :
    a.evalChecked? params = some (a.eval params) := by
  induction a with
  | zero => rfl
  | pi => rfl
  | param index =>
    have hindex : index < params.length := of_decide_eq_true h
    rw [AngleTerm.evalChecked?, AngleTerm.eval, List.getD_eq_getElem?_getD, List.getElem?_eq_getElem hindex]
    rfl
  | half a ih => rw [AngleTerm.evalChecked?, ih h]; rfl
  | neg a ih => rw [AngleTerm.evalChecked?, ih h]; rfl

/-- A rule for an instruction finds all operands and parameters that it names. -/
theorem expandChecked?_eq (hr : r ∈ rules) (happlies : r.appliesTo i) : r.expandChecked? i = some (r.expand i) := by
  obtain ⟨-, hwidth, hparams⟩ := appliesTo_iff.mp happlies
  refine mapM_eq_some_map fun s hs => ?_
  have hwires : s.wires.mapM (i.qubits[·]?) = some (s.wires.map fun w => i.qubits.getD w 0) := by
    refine mapM_eq_some_map fun w hw => ?_
    have hlt : w < i.qubits.length := Nat.lt_of_lt_of_eq ((operands_of_step r hr s hs).2 w hw) hwidth
    rw [List.getD_eq_getElem?_getD, List.getElem?_eq_getElem hlt]
    rfl
  have hangles : s.angles.mapM (·.evalChecked? i.params) = some (s.angles.map (·.eval i.params)) :=
    mapM_eq_some_map fun a ha => evalChecked?_eq (hparams ▸ refersBelow_of_step r hr s hs a ha)
  rw [hwires, hangles]
  rfl

theorem mirrors_expandGateChecked {levels : Levels} (bound : Nat) (i : Instruction α) :
    Mirrors Eq (expandGateChecked basis levels bound i) (expandGate basis levels bound i) := by
  induction bound generalizing i with
  | zero =>
    unfold expandGateChecked expandGate
    split_ifs
    · exact .pure rfl
    · cases level? basis levels i.name <;> exact .throw _
  | succ bound ih =>
    unfold expandGateChecked expandGate
    split_ifs
    · exact .pure rfl
    · cases level? basis levels i.name with
      | none => exact .throw _
      | some own =>
        dsimp only
        cases hr : ruleFor? basis levels own i with
        | none => exact .throw _
        | some rule =>
          obtain ⟨hmem, happlies, -⟩ := ruleFor?_eq_some hr
          exact .lift (expandChecked?_eq hmem happlies) ((mirrors_mapM fun j _ => ih j).map _)

/-- No rule refers to an operand or a parameter that the gates it is used on lack. -/
theorem mirrors_translateChecked : Mirrors Eq (translateChecked basis is) (translateGates basis is) :=
  (mirrors_mapM fun i _ => mirrors_expandGateChecked _ i).map _

end CircuitStages
