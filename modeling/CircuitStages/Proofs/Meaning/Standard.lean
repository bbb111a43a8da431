import CircuitStages.Circuit.Instruction
import CircuitStages.Proofs.Except
import CircuitStages.Proofs.Meaning.Turns

namespace CircuitStages

variable {α : Type} {n : Nat} {V : Type*} [AddCommGroup V] [Module ℂ V]

/-- The product of the operators of instructions, with that of the first one applied first. -/
def meaning {M : Type*} [Monoid M] (interpret : Instruction α → M) : List (Instruction α) → M
  | [] => 1
  | i :: is => meaning interpret is * interpret i

/-- The qubits of a register that have these numbers. -/
def wires? (n : Nat) (qubits : List Nat) : Option (List (Fin n)) :=
  qubits.mapM fun q => if h : q < n then some ⟨q, h⟩ else none

noncomputable def turn? (name : String) (angles : List ℝ) : Option Turn :=
  match name, angles with
  | "id", [] => some 1
  | "h", [] => some Turn.h
  | "x", [] => some Turn.x
  | "y", [] => some Turn.y
  | "z", [] => some Turn.z
  | "s", [] => some Turn.s
  | "sdg", [] => some Turn.sdg
  | "t", [] => some Turn.t
  | "tdg", [] => some Turn.tdg
  | "sx", [] => some Turn.sx
  | "sxdg", [] => some Turn.sxdg
  | "rx", [θ] => some (Turn.rx θ)
  | "ry", [θ] => some (Turn.ry θ)
  | "rz", [θ] => some (Turn.rz θ)
  | "p", [θ] => some (Turn.p θ)
  | "u", [θ, φ, ψ] => some (Turn.u θ φ ψ)
  | "prx", [θ, φ] => some (Turn.prx θ φ)
  | _, _ => none

noncomputable def pairOperator? (name : String) (angles : List ℝ) (a b : Fin n) :
    Option (Module.End ℂ (Register n V)) :=
  match name, angles with
  | "cx", [] => some (controlled [a] Turn.x b)
  | "cy", [] => some (controlled [a] Turn.y b)
  | "cz", [] => some (controlled [a] Turn.z b)
  | "cp", [θ] => some (controlled [a] (Turn.p θ) b)
  | "crz", [θ] => some (controlled [a] (Turn.rz θ) b)
  | "rzz", [θ] => some (chosen a (Turn.rz (-θ)) (Turn.rz θ) b)
  | "swap", [] => some (controlledSwap [] a b)
  | _, _ => none

/-- The gates on three qubits. They have no use for parameters. -/
noncomputable def tripleOperator? (name : String) (a b c : Fin n) : Option (Module.End ℂ (Register n V)) :=
  match name with
  | "ccx" => some (controlled [a, b] Turn.x c)
  | "ccz" => some (controlled [a, b] Turn.z c)
  | "cswap" => some (controlledSwap [a] b c)
  | _ => none

/-- The operator of an instruction if it is one of the standard gates. -/
noncomputable def operator? (value : α → ℝ) (i : Instruction α) : Option (Module.End ℂ (Register n V)) :=
  if i.clbits = [] then
    match wires? n i.qubits with
    | some [t] => (turn? i.name (i.params.map value)).map (onQubit · t)
    | some [a, b] => pairOperator? i.name (i.params.map value) a b
    | some [a, b, c] => tripleOperator? i.name a b c
    | _ => none
  else none

/-- The standard operators for the standard gates of these names, and any operators for everything else. -/
noncomputable def interpretation (names : List String) (value : α → ℝ)
    (other : Instruction α → Module.End ℂ (Register n V)) (i : Instruction α) : Module.End ℂ (Register n V) :=
  if i.name ∈ names then (operator? value i).getD (other i) else other i

variable {names : List String} {value : α → ℝ} {other : Instruction α → Module.End ℂ (Register n V)} {name : String}
  {params : List α}

theorem meaning_append {M : Type*} [Monoid M] (interpret : Instruction α → M) (is js : List (Instruction α)) :
    meaning interpret (is ++ js) = meaning interpret js * meaning interpret is := by
  induction is with
  | nil => rw [List.nil_append, meaning, mul_one]
  | cons i is ih => rw [List.cons_append, meaning, ih, meaning, mul_assoc]

/-- If each instruction is replaced by others that mean the same in some sense, all mean the same in that sense. -/
theorem meaning_flatten_mapM {M : Type*} [Monoid M] {same : M → M → Prop} {interpret : Instruction α → M}
    {ε : Type} {f : Instruction α → Except ε (List (Instruction α))} {is : List (Instruction α)}
    {blocks : List (List (Instruction α))} (hone : same 1 1)
    (hmul : ∀ a b c d, same a b → same c d → same (a * c) (b * d)) (h : is.mapM f = .ok blocks)
    (hf : ∀ i ∈ is, ∀ gs, f i = .ok gs → same (meaning interpret gs) (interpret i)) :
    same (meaning interpret blocks.flatten) (meaning interpret is) := by
  induction is generalizing blocks with
  | nil =>
    obtain rfl := pure_eq_ok.mp h
    exact hone
  | cons i is ih =>
    obtain ⟨hi, his⟩ := List.forall_mem_cons.mp hf
    rw [List.mapM_cons, bind_eq_ok] at h
    obtain ⟨gs, hgs, h⟩ := h
    obtain ⟨rest, hrest, h⟩ := bind_eq_ok.mp h
    obtain rfl := pure_eq_ok.mp h
    rw [List.flatten_cons, meaning_append]
    exact hmul _ _ _ _ (ih hrest his) (hi gs hgs)

theorem wires?_map_val (qubits : List (Fin n)) : wires? n (qubits.map (·.val)) = some qubits := by
  induction qubits with
  | nil => rfl
  | cons q qubits ih =>
    rw [wires?] at ih ⊢
    rw [List.map_cons, List.mapM_cons, ih, dif_pos q.isLt]
    rfl

theorem operator?_one (t : Fin n) : (operator? value (.gate name [t] params) : Option (Module.End ℂ (Register n V))) =
    (turn? name (params.map value)).map (onQubit · t) := by
  have hwires : wires? n [t.val] = some [t] := wires?_map_val [t]
  simp only [operator?, Instruction.gate, hwires, if_true]

theorem operator?_two (a b : Fin n) :
    (operator? value (.gate name [a, b] params) : Option (Module.End ℂ (Register n V))) =
      pairOperator? name (params.map value) a b := by
  have hwires : wires? n [a.val, b.val] = some [a, b] := wires?_map_val [a, b]
  simp only [operator?, Instruction.gate, hwires, if_true]

theorem operator?_three (a b c : Fin n) :
    (operator? value (.gate name [a, b, c] params) : Option (Module.End ℂ (Register n V))) =
      tripleOperator? name a b c := by
  have hwires : wires? n [a.val, b.val, c.val] = some [a, b, c] := wires?_map_val [a, b, c]
  simp only [operator?, Instruction.gate, hwires, if_true]

/-- The product of the operators of standard gates. -/
noncomputable def network? (value : α → ℝ) : List (Instruction α) → Option (Module.End ℂ (Register n V))
  | [] => some 1
  | i :: is => do
    let u ← operator? value i
    let v ← network? value is
    some (v * u)

theorem network?_cons {i : Instruction α} {is : List (Instruction α)} {u v : Module.End ℂ (Register n V)}
    (hu : operator? value i = some u) (hv : network? value is = some v) :
    network? value (i :: is) = some (v * u) := by
  rw [network?, hu, hv]
  rfl

theorem network?_singleton {i : Instruction α} {u : Module.End ℂ (Register n V)} (hu : operator? value i = some u) :
    network? value [i] = some u := by
  rw [network?_cons hu rfl, one_mul]

theorem network?_append {is js : List (Instruction α)} {u v : Module.End ℂ (Register n V)}
    (hu : network? value is = some u) (hv : network? value js = some v) :
    network? value (is ++ js) = some (v * u) := by
  induction is generalizing u with
  | nil =>
    obtain rfl := Option.some.inj hu
    rw [List.nil_append, hv, mul_one]
  | cons i is ih =>
    rw [network?, Option.bind_eq_bind, Option.bind_eq_some_iff] at hu
    obtain ⟨w, hw, hu⟩ := hu
    obtain ⟨rest, hrest, hu⟩ := Option.bind_eq_some_iff.mp hu
    obtain rfl := Option.some.inj hu
    rw [List.cons_append, network?_cons hw (ih hrest), mul_assoc]

theorem interpretation_eq {i : Instruction α} {u : Module.End ℂ (Register n V)} (hname : i.name ∈ names)
    (h : operator? value i = some u) : interpretation names value other i = u := by
  rw [interpretation, if_pos hname, h, Option.getD_some]

theorem meaning_eq_of_network? {is : List (Instruction α)} {u : Module.End ℂ (Register n V)}
    (hnames : ∀ i ∈ is, i.name ∈ names) (h : network? value is = some u) :
    meaning (interpretation names value other) is = u := by
  induction is generalizing u with
  | nil => exact Option.some.inj h
  | cons i is ih =>
    rw [network?, Option.bind_eq_bind, Option.bind_eq_some_iff] at h
    obtain ⟨v, hv, h⟩ := h
    obtain ⟨w, hw, h⟩ := Option.bind_eq_some_iff.mp h
    obtain ⟨hi, his⟩ := List.forall_mem_cons.mp hnames
    rw [meaning, interpretation_eq hi hv, ih his hw]
    exact Option.some.inj h

end CircuitStages
