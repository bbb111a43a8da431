import CircuitStages.Data.Node
import CircuitStages.Proofs.Except

namespace CircuitStages

variable {α : Type}

theorem itemsToNodes_eq_map (items : List Value) : itemsToNodes items = items.map Value.toNode := by
  induction items with
  | nil => rfl
  | cons item items ih => rw [itemsToNodes, ih, List.map_cons]

namespace Node

theorem asNat_toNode {k : Nat} (h : k ≤ maxIndex) : asNat (Value.ofNat k).toNode = .ok k := by
  simp [Value.ofNat, Value.toNode, asNat, asNatUpTo, h]

/-- A number that is read as an index is one. -/
theorem le_of_asNat {n : Node} {k : Nat} (h : n.asNat = .ok k) : k ≤ maxIndex := by
  rw [asNat, asNatUpTo.eq_def] at h
  split at h
  next =>
    split at h
    next hrange =>
      cases h
      omega
    next => cases h
  next => cases h

theorem asFloat_toNode {x : Float} (h : x.isFinite) : asFloat (Value.ofFloat x).toNode = .ok x := by
  rw [Value.ofFloat, if_pos h]
  rfl

theorem asList_toNode {item : Node → Decoded α} {write : α → Value} {xs : List α}
    (h : ∀ x ∈ xs, item (write x).toNode = .ok x) : asList item (Value.array (xs.map write)).toNode = .ok xs := by
  rw [Value.toNode, itemsToNodes_eq_map, asList, List.map_map, List.mapM_map]
  exact (mapM_eq_ok_map (g := id) h).trans (congrArg Except.ok (List.map_id xs))

theorem asNats_toNode {ks : List Nat} (h : ∀ k ∈ ks, k ≤ maxIndex) :
    asList asNat (Value.ofNats ks).toNode = .ok ks :=
  asList_toNode fun k hk => asNat_toNode (h k hk)

theorem asPairs_toNode {pairs : List (Nat × Nat)} (h : ∀ e ∈ pairs, e.1 ≤ maxIndex ∧ e.2 ≤ maxIndex) :
    asList (asPair asNat asNat) (Value.ofPairs pairs).toNode = .ok pairs := by
  refine asList_toNode fun e he => ?_
  obtain ⟨hfirst, hsecond⟩ := h e he
  have hpair : asPair asNat asNat (Value.ofNats [e.1, e.2]).toNode = (do
      let x ← asNat (Value.ofNat e.1).toNode
      let y ← asNat (Value.ofNat e.2).toNode
      pure (x, y)) := rfl
  rw [hpair, asNat_toNode hfirst, asNat_toNode hsecond]
  rfl

/-- An option is told from what it holds as long as that is never written as nothing. -/
theorem asOption_toNode {value : Node → Decoded α} {write : α → Value} {o : Option α}
    (hsome : ∀ x, write x ≠ .null) (h : ∀ x ∈ o, value (write x).toNode = .ok x) :
    asOption value (Value.ofOption write o).toNode = .ok o := by
  cases o with
  | none => rfl
  | some x =>
    have hread : asOption value (write x).toNode = some <$> value (write x).toNode := by
      cases hx : write x with
      | null => exact absurd hx (hsome x)
      | _ => rfl
    rw [Value.ofOption, Option.elim_some, hread, h x rfl]
    rfl

end Node

end CircuitStages
