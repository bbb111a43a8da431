import CircuitStages.Proofs.Circuit.Checks
import CircuitStages.Proofs.Circuit.Layout
import CircuitStages.Proofs.Data.Json

namespace CircuitStages

theorem rejectFault_eq_ok_iff {α : Type} {x : Except CircuitError α} {a : α} : rejectFault x = .ok a ↔ x = .ok a := by
  cases x with
  | error e => exact iff_of_false nofun nofun
  | ok b => exact ⟨fun h => congrArg _ (Except.ok.inj h), fun h => congrArg _ (Except.ok.inj h)⟩

namespace Layout

variable {l : Layout} {pairs : List (Nat × Nat)}

/-- Whether no qubit of either side occurs twice. -/
structure Distinct (pairs : List (Nat × Nat)) : Prop where
  virtual : (pairs.map (·.1)).Nodup
  physical : (pairs.map (·.2)).Nodup

theorem distinct_pairs (l : Layout) : Distinct l.pairs := ⟨l.nodup_virtual, l.nodup_physical⟩

theorem ofDistinct_eq_ok_iff : ofDistinct pairs = .ok l ↔ Distinct pairs ∧ l = ofPairs pairs := by
  have hconflicts : hasConflicts pairs = false ↔ Distinct pairs :=
    (hasConflicts_eq_false_iff pairs).trans ⟨fun h => ⟨h.1, h.2⟩, fun h => ⟨h.virtual, h.physical⟩⟩
  rw [← hconflicts, ofDistinct]
  cases hasConflicts pairs with
  | true => exact iff_of_false nofun nofun
  | false => simp [eq_comm]

/-- The layout of a list of pairs without conflicts lists them sorted. -/
theorem pairs_ofPairs (h : Distinct pairs) : (ofPairs pairs).pairs = pairs.mergeSort fun a b => a.1 ≤ b.1 := by
  rw [ofPairs, dif_pos ((hasConflicts_eq_false_iff pairs).mpr ⟨h.virtual, h.physical⟩)]
  rfl

theorem ofDistinct_pairs (l : Layout) : ofDistinct l.pairs = .ok l :=
  ofDistinct_eq_ok_iff.mpr ⟨l.distinct_pairs, l.ofPairs_pairs.symm⟩

theorem ofNode_eq_ok_iff {n : Node} :
    ofNode n = .ok l ↔ ∃ pairs, n.asPlacements = .ok pairs ∧ ofDistinct pairs = .ok l := by
  simp only [ofNode, bind_eq_ok, rejectFault_eq_ok_iff]

theorem ofNode_toNode (h : ∀ e ∈ l.pairs, e.1 ≤ Node.maxIndex ∧ e.2 ≤ Node.maxIndex) :
    ofNode l.toValue.toNode = .ok l :=
  ofNode_eq_ok_iff.mpr ⟨l.pairs, Node.asPairs_toNode h, l.ofDistinct_pairs⟩

theorem asOption_bind {α β : Type} (value : Node → Decoded α) (f : α → Decoded β) (n : Node) :
    Node.asOption (fun n => value n >>= f) n = Node.asOption value n >>= Option.mapM f := by
  have hsome (n : Node) : some <$> (value n >>= f) = (some <$> value n) >>= Option.mapM f := by
    cases value n <;> rfl
  cases n with
  | scalar v text =>
    cases v with
    | null => rfl
    | _ => exact hsome _
  | _ => exact hsome _

/-- An optional layout is read as its pairs, which must not have conflicts. -/
theorem optionalField_eq_ok_iff {fields : List (String × Node)} {name : String} {l : Option Layout} :
    optionalField fields name ofNode = .ok l ↔ ∃ given, optionalField fields name Node.asPlacements = .ok given ∧
      (∀ pairs ∈ given, Distinct pairs) ∧ l = given.map ofPairs := by
  have hread : optionalField fields name ofNode =
      optionalField fields name Node.asPlacements >>= Option.mapM fun pairs => rejectFault (ofDistinct pairs) := by
    rw [optionalField, defaultedField, optionalField, defaultedField]
    cases field? fields name with
    | none => rfl
    | some n => exact asOption_bind Node.asPlacements _ n
  rw [hread, bind_eq_ok]
  refine exists_congr fun given => and_congr_right fun _ => ?_
  cases given with
  | none =>
    refine pure_eq_ok.trans ?_
    simp [eq_comm]
  | some pairs =>
    simp only [Option.mapM_some, map_eq_ok, rejectFault_eq_ok_iff, ofDistinct_eq_ok_iff]
    constructor
    · rintro ⟨_, ⟨hpairs, rfl⟩, rfl⟩
      exact ⟨fun _ hmem => Option.some.inj hmem ▸ hpairs, rfl⟩
    · rintro ⟨hpairs, rfl⟩
      exact ⟨_, ⟨hpairs pairs rfl, rfl⟩, rfl⟩

/-- The pairs of a layout lie below a size if those it has been read from do. -/
theorem forall_lt_ofPairs_iff {given : Option (List (Nat × Nat))} {size : Nat} (h : ∀ pairs ∈ given, Distinct pairs) :
    (∀ l ∈ given.map ofPairs, ∀ e ∈ l.pairs, e.1 < size ∧ e.2 < size) ↔
      ∀ pairs ∈ given, ∀ e ∈ pairs, e.1 < size ∧ e.2 < size := by
  cases given with
  | none => exact iff_of_true nofun nofun
  | some pairs =>
    have hpairs := h pairs rfl
    simp only [Option.map_some, Option.mem_some_iff, forall_eq', mem_ofPairs hpairs.virtual hpairs.physical]

end Layout

/-- What a document says about a circuit, before anything is checked. -/
structure CircuitRecord where
  name : String
  numQubits : Nat
  numClbits : Nat
  instructions : List (Instruction Float)
  layout : Option (List (Nat × Nat))
  finalLayout : Option (List (Nat × Nat))
  startTimes : Option (List Float)

namespace CircuitRecord

variable {r : CircuitRecord}

def ofNode (n : Node) : Decoded CircuitRecord := do
  let fields ← n.asRecord
    ["name", "num_qubits", "num_clbits", "instructions", "layout", "final_layout", "start_times"]
  let name ← requiredField fields "name" Node.asText
  let numQubits ← requiredField fields "num_qubits" Node.asNat
  let numClbits ← requiredField fields "num_clbits" Node.asNat
  let instructions ← requiredField fields "instructions" (Node.asList Instruction.ofNode)
  let layout ← optionalField fields "layout" Node.asPlacements
  let finalLayout ← optionalField fields "final_layout" Node.asPlacements
  let startTimes ← optionalField fields "start_times" (Node.asList Node.asFloat)
  pure ⟨name, numQubits, numClbits, instructions, layout, finalLayout, startTimes⟩

/-- The circuit with these fields. -/
def circuit (r : CircuitRecord) : Circuit Float :=
  ⟨r.name, r.numQubits, r.numClbits, r.instructions, r.layout.map .ofPairs, r.finalLayout.map .ofPairs, r.startTimes⟩

/-- Whether the fields go together: every instruction can be appended, both layouts are free of conflicts and fit the
circuit, and a schedule has one time per instruction. -/
structure Accepted (r : CircuitRecord) : Prop where
  check_eq_ok : ∀ i ∈ r.instructions, (Circuit.empty r.name r.numQubits r.numClbits).check i = .ok ()
  layout_distinct : ∀ pairs ∈ r.layout, Layout.Distinct pairs
  layout_lt : ∀ pairs ∈ r.layout, ∀ e ∈ pairs, e.1 < r.numQubits ∧ e.2 < r.numQubits
  finalLayout_distinct : ∀ pairs ∈ r.finalLayout, Layout.Distinct pairs
  finalLayout_lt : ∀ pairs ∈ r.finalLayout, ∀ e ∈ pairs, e.1 < r.numQubits ∧ e.2 < r.numQubits
  startTimes_length : ∀ times ∈ r.startTimes, times.length = r.instructions.length

theorem accepted_iff : r.Accepted ↔ (∀ pairs ∈ r.layout, Layout.Distinct pairs) ∧
    (∀ pairs ∈ r.finalLayout, Layout.Distinct pairs) ∧ r.circuit.WellFormed := by
  have hfits (i : Instruction Float) : (Circuit.empty r.name r.numQubits r.numClbits).check i = .ok () ↔
      r.circuit.Fits i :=
    Circuit.check_eq_ok_iff.trans ⟨fun h => h.congr rfl rfl, fun h => h.congr rfl rfl⟩
  constructor
  · intro h
    have hall : ∀ i ∈ r.instructions, r.circuit.Fits i := fun i hi => (hfits i).mp (h.check_eq_ok i hi)
    exact ⟨h.layout_distinct, h.finalLayout_distinct, fun i hi => (hall i hi).qubits_lt,
      fun i hi => (hall i hi).clbits_lt, fun i hi => (hall i hi).qubits_nodup, fun i hi => (hall i hi).width_eq_one,
      (Layout.forall_lt_ofPairs_iff h.layout_distinct).mpr h.layout_lt,
      (Layout.forall_lt_ofPairs_iff h.finalLayout_distinct).mpr h.finalLayout_lt, h.startTimes_length⟩
  · rintro ⟨hlayout, hfinal, h⟩
    exact ⟨fun i hi => (hfits i).mpr (h.fits hi), hlayout, (Layout.forall_lt_ofPairs_iff hlayout).mp h.layout_lt,
      hfinal, (Layout.forall_lt_ofPairs_iff hfinal).mp h.finalLayout_lt, h.startTimes_length⟩

end CircuitRecord

namespace Circuit

variable {n : Node} {c : Circuit Float}

/-- A document is read as a circuit exactly if it has the shape of a record whose fields go together, and then as the
circuit with these fields. -/
theorem ofNode_eq_ok_iff : ofNode n = .ok c ↔ ∃ r, CircuitRecord.ofNode n = .ok r ∧ r.Accepted ∧ c = r.circuit := by
  simp only [ofNode, CircuitRecord.ofNode, bind_eq_ok, pure_eq_ok, rejectFault_eq_ok_iff,
    Layout.optionalField_eq_ok_iff, ofParts_eq_ok_iff, CircuitRecord.accepted_iff]
  constructor
  · rintro ⟨fields, hfields, name, hname, numQubits, hnumQubits, numClbits, hnumClbits, is, his, _,
      ⟨layout, hlayout, hdistinct, rfl⟩, _, ⟨finalLayout, hfinalLayout, hdistinctFinal, rfl⟩, times, htimes, rfl, hwell⟩
    exact ⟨⟨name, numQubits, numClbits, is, layout, finalLayout, times⟩, ⟨fields, hfields, name, hname, numQubits,
      hnumQubits, numClbits, hnumClbits, is, his, layout, hlayout, finalLayout, hfinalLayout, times, htimes, rfl⟩,
      ⟨hdistinct, hdistinctFinal, hwell⟩, rfl⟩
  · rintro ⟨_, ⟨fields, hfields, name, hname, numQubits, hnumQubits, numClbits, hnumClbits, is, his, layout, hlayout,
      finalLayout, hfinalLayout, times, htimes, rfl⟩, ⟨hdistinct, hdistinctFinal, hwell⟩, rfl⟩
    exact ⟨fields, hfields, name, hname, numQubits, hnumQubits, numClbits, hnumClbits, is, his, _,
      ⟨layout, hlayout, hdistinct, rfl⟩, _, ⟨finalLayout, hfinalLayout, hdistinctFinal, rfl⟩, times, htimes, rfl, hwell⟩

/-- Whether all angles and times in a circuit are finite. -/
structure Finite (c : Circuit Float) : Prop where
  params : ∀ i ∈ c.instructions, ∀ x ∈ i.params, x.isFinite
  startTimes : ∀ times ∈ c.startTimes, ∀ x ∈ times, x.isFinite

/-- Whether all angles and times in a circuit come back from their text. -/
structure Survives (numbers : NumberText) (c : Circuit Float) : Prop where
  params : ∀ i ∈ c.instructions, ∀ x ∈ i.params, numbers.Survives x
  startTimes : ∀ times ∈ c.startTimes, ∀ x ∈ times, numbers.Survives x

end Circuit

theorem Instruction.ofNode_toNode {i : Instruction Float} (hqubits : ∀ q ∈ i.qubits, q ≤ Node.maxIndex)
    (hclbits : ∀ b ∈ i.clbits, b ≤ Node.maxIndex) (hparams : ∀ x ∈ i.params, x.isFinite) :
    ofNode i.toValue.toNode = .ok i := by
  let fields : List (String × Node) := [("name", (Value.string i.name).toNode),
    ("qubits", (Value.ofNats i.qubits).toNode), ("clbits", (Value.ofNats i.clbits).toNode),
    ("params", (Value.array (i.params.map .ofFloat)).toNode)]
  have hfields : i.toValue.toNode.asRecord ["name", "qubits", "clbits", "params"] = .ok fields := rfl
  have hname : requiredField fields "name" Node.asText = .ok i.name := rfl
  have hreadQubits : requiredField fields "qubits" (Node.asList Node.asNat) = .ok i.qubits := Node.asNats_toNode hqubits
  have hreadClbits : defaultedField fields "clbits" (Node.asList Node.asNat) [] = .ok i.clbits :=
    Node.asNats_toNode hclbits
  have hreadParams : defaultedField fields "params" (Node.asList Node.asFloat) [] = .ok i.params :=
    Node.asList_toNode fun x hx => Node.asFloat_toNode (hparams x hx)
  simp only [ofNode, bind_eq_ok]
  exact ⟨fields, hfields, i.name, hname, i.qubits, hreadQubits, i.clbits, hreadClbits, i.params, hreadParams, rfl⟩

namespace Circuit

variable {c : Circuit Float}

theorem ofNode_toNode (hc : c.WellFormed) (hqubits : c.numQubits ≤ Node.maxIndex)
    (hclbits : c.numClbits ≤ Node.maxIndex) (hfinite : c.Finite) : ofNode c.toValue.toNode = .ok c := by
  let fields : List (String × Node) := [("name", (Value.string c.name).toNode),
    ("num_qubits", (Value.ofNat c.numQubits).toNode), ("num_clbits", (Value.ofNat c.numClbits).toNode),
    ("instructions", (Value.array (c.instructions.map Instruction.toValue)).toNode),
    ("layout", (Value.ofOption Layout.toValue c.layout).toNode),
    ("final_layout", (Value.ofOption Layout.toValue c.finalLayout).toNode),
    ("start_times", (Value.ofOption (fun times => .array (times.map .ofFloat)) c.startTimes).toNode)]
  have hbelow {k : Nat} (hk : k < c.numQubits) : k ≤ Node.maxIndex := Nat.le_of_lt (Nat.lt_of_lt_of_le hk hqubits)
  have hfields : c.toValue.toNode.asRecord ["name", "num_qubits", "num_clbits", "instructions", "layout",
      "final_layout", "start_times"] = .ok fields := rfl
  have hname : requiredField fields "name" Node.asText = .ok c.name := rfl
  have hreadQubits : requiredField fields "num_qubits" Node.asNat = .ok c.numQubits := Node.asNat_toNode hqubits
  have hreadClbits : requiredField fields "num_clbits" Node.asNat = .ok c.numClbits := Node.asNat_toNode hclbits
  have hinstructions : requiredField fields "instructions" (Node.asList Instruction.ofNode) = .ok c.instructions := by
    refine Node.asList_toNode fun i hi => Instruction.ofNode_toNode ?_ ?_ (hfinite.params i hi)
    · exact fun q hq => hbelow (hc.qubits_lt i hi q hq)
    · exact fun b hb => Nat.le_of_lt (Nat.lt_of_lt_of_le (hc.clbits_lt i hi b hb) hclbits)
  have hlayout (l : Layout) (hl : ∀ e ∈ l.pairs, e.1 < c.numQubits ∧ e.2 < c.numQubits) :
      Layout.ofNode l.toValue.toNode = .ok l :=
    Layout.ofNode_toNode fun e he => ⟨hbelow (hl e he).1, hbelow (hl e he).2⟩
  have hreadLayout : optionalField fields "layout" Layout.ofNode = .ok c.layout :=
    Node.asOption_toNode nofun fun l hl => hlayout l (hc.layout_lt l hl)
  have hreadFinal : optionalField fields "final_layout" Layout.ofNode = .ok c.finalLayout :=
    Node.asOption_toNode nofun fun l hl => hlayout l (hc.finalLayout_lt l hl)
  have htimes : optionalField fields "start_times" (Node.asList Node.asFloat) = .ok c.startTimes :=
    Node.asOption_toNode nofun fun times ht =>
      Node.asList_toNode fun x hx => Node.asFloat_toNode (hfinite.startTimes times ht x hx)
  simp only [ofNode, bind_eq_ok, rejectFault_eq_ok_iff]
  exact ⟨fields, hfields, c.name, hname, c.numQubits, hreadQubits, c.numClbits, hreadClbits, c.instructions,
    hinstructions, c.layout, hreadLayout, c.finalLayout, hreadFinal, c.startTimes, htimes,
    ofParts_eq_ok_iff.mpr ⟨rfl, hc⟩⟩

/-- A circuit is nested four levels deep: instructions in a list, each with lists of its own. -/
theorem readable_toValue {numbers : NumberText} (levels : Nat) (hc : c.WellFormed)
    (hqubits : c.numQubits ≤ Node.maxIndex) (hclbits : c.numClbits ≤ Node.maxIndex) (hfinite : c.Finite)
    (h : c.Survives numbers) : Json.Readable numbers (levels + 4) c.toValue := by
  have hbelow {k : Nat} (hk : k < c.numQubits) : k ≤ Node.maxIndex := Nat.le_of_lt (Nat.lt_of_lt_of_le hk hqubits)
  have hlayout (l : Layout) (hl : ∀ e ∈ l.pairs, e.1 < c.numQubits ∧ e.2 < c.numQubits) :
      Json.Readable numbers (levels + 3) l.toValue :=
    Json.readable_ofPairs fun e he => ⟨hbelow (hl e he).1, hbelow (hl e he).2⟩
  have hinstructions : Json.Readable numbers (levels + 3) (.array (c.instructions.map Instruction.toValue)) := by
    refine Json.readable_list fun i hi => .object ?_
    simp only [List.forall_mem_cons]
    refine ⟨.string, Json.readable_ofNats ?_, Json.readable_ofNats ?_, Json.readable_list ?_, nofun⟩
    · exact fun q hq => hbelow (hc.qubits_lt i hi q hq)
    · exact fun b hb => Nat.le_of_lt (Nat.lt_of_lt_of_le (hc.clbits_lt i hi b hb) hclbits)
    · exact fun x hx => Json.readable_ofFloat (hfinite.params i hi x hx) (h.params i hi x hx)
  refine .object ?_
  simp only [List.forall_mem_cons]
  refine ⟨.string, Json.readable_ofNat hqubits, Json.readable_ofNat hclbits, hinstructions,
    Json.readable_ofOption fun l hl => hlayout l (hc.layout_lt l hl),
    Json.readable_ofOption fun l hl => hlayout l (hc.finalLayout_lt l hl),
    Json.readable_ofOption fun times ht => Json.readable_list fun x hx => ?_, nofun⟩
  exact Json.readable_ofFloat (hfinite.startTimes times ht x hx) (h.startTimes times ht x hx)

theorem ofText_toText {numbers : NumberText} (hc : c.WellFormed) (hqubits : c.numQubits ≤ Node.maxIndex)
    (hclbits : c.numClbits ≤ Node.maxIndex) (hfinite : c.Finite) (h : c.Survives numbers) :
    ofText numbers (c.toText numbers) = .ok c := by
  have hreadable : Json.Readable numbers Json.maxDepth c.toValue :=
    readable_toValue 123 hc hqubits hclbits hfinite h
  rw [ofText, toText, Json.read_write hreadable]
  exact ofNode_toNode hc hqubits hclbits hfinite

end Circuit

end CircuitStages
