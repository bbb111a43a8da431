import CircuitStages.Proofs.Device.Tree
import CircuitStages.Proofs.Pass.Failure

namespace CircuitStages

section Zip

variable {xs ys : List Nat} {a b c d : Nat}

/-- Ascending numbers are paired off in order. -/
theorem lt_of_mem_zip (hxs : xs.Pairwise (· < ·)) (hys : ys.Pairwise (· < ·)) (hab : (a, b) ∈ xs.zip ys)
    (hcd : (c, d) ∈ xs.zip ys) (hac : a < c) : b < d := by
  induction xs generalizing ys with
  | nil => simp at hab
  | cons x xs ih =>
    cases ys with
    | nil => simp at hab
    | cons y ys =>
      obtain ⟨hx, hxs⟩ := List.pairwise_cons.mp hxs
      obtain ⟨hy, hys⟩ := List.pairwise_cons.mp hys
      rw [List.zip_cons_cons, List.mem_cons] at hab hcd
      rcases hab with hab | hab <;> rcases hcd with hcd | hcd
      · cases hab
        cases hcd
        exact absurd hac (Nat.lt_irrefl _)
      · cases hab
        exact hy d (List.of_mem_zip hcd).2
      · cases hcd
        exact absurd (hx a (List.of_mem_zip hab).1) (Nat.lt_asymm hac)
      · exact ih hxs hys hab hcd

/-- None of the smaller numbers is passed over. -/
theorem exists_mem_zip_of_lt (hys : ys.Pairwise (· < ·)) (hab : (a, b) ∈ xs.zip ys) (hd : d ∈ ys) (hdb : d < b) :
    ∃ c, (c, d) ∈ xs.zip ys := by
  induction xs generalizing ys with
  | nil => simp at hab
  | cons x xs ih =>
    cases ys with
    | nil => simp at hab
    | cons y ys =>
      obtain ⟨hy, hys⟩ := List.pairwise_cons.mp hys
      rw [List.zip_cons_cons, List.mem_cons] at hab
      rcases List.mem_cons.mp hd with rfl | hrest
      · exact ⟨x, List.mem_cons_self⟩
      · rcases hab with hfirst | hab
        · obtain ⟨-, rfl⟩ := Prod.mk.inj hfirst
          exact absurd (hy d hrest) (Nat.lt_asymm hdb)
        · obtain ⟨c, hc⟩ := ih hys hab hrest
          exact ⟨c, List.mem_cons_of_mem _ hc⟩

end Zip

section Completion

variable {asked : Nat → Nat → Prop}

/-- Whether no position is asked for a virtual qubit. -/
def IsUnasked (asked : Nat → Nat → Prop) (v : Nat) : Prop := ∀ p, ¬ asked v p

/-- Whether a position is asked for no virtual qubit below `n`. -/
def IsLeftOver (asked : Nat → Nat → Prop) (n p : Nat) : Prop := ∀ v < n, ¬ asked v p

/-- Whether a layout places exactly the virtual qubits below `n`, at positions of their own: where it is asked to, and
all others in ascending order at the lowest positions left over. -/
structure Layout.Completes (l : Layout) (n : Nat) (asked : Nat → Nat → Prop) : Prop where
  injective : ∀ v w p, l.physical? v = some p → l.physical? w = some p → v = w
  isSome_iff : ∀ v, (l.physical? v).isSome ↔ v < n
  keeps : ∀ v < n, ∀ p, asked v p → l.physical? v = some p
  ascending : ∀ v w p q, IsUnasked asked v → IsUnasked asked w → l.physical? v = some p → l.physical? w = some q →
    v < w → p < q
  isLeftOver : ∀ v p, IsUnasked asked v → l.physical? v = some p → IsLeftOver asked n p
  lowest : ∀ v p, IsUnasked asked v → l.physical? v = some p → ∀ q < p, IsLeftOver asked n q →
    ∃ w, IsUnasked asked w ∧ l.physical? w = some q

variable (l : Layout) (n : Nat)

theorem Layout.mem_unplaced {v : Nat} : v ∈ l.unplaced n ↔ v < n ∧ ∀ p, (v, p) ∉ l.pairs := by
  simp only [unplaced, mem_absentBelow, below, List.mem_map, List.mem_filter, decide_eq_true_eq]
  refine and_congr_right fun hv => ⟨fun h p hp => h ⟨(v, p), ⟨hp, hv⟩, rfl⟩, ?_⟩
  rintro h ⟨⟨w, p⟩, ⟨hp, -⟩, rfl⟩
  exact h p hp

theorem Layout.mem_free {p : Nat} : p ∈ l.free n ↔ p < n ∧ ∀ v < n, (v, p) ∉ l.pairs := by
  simp only [free, mem_absentBelow, below, List.mem_map, List.mem_filter, decide_eq_true_eq]
  refine and_congr_right fun _ => ⟨fun h v hv hp => h ⟨(v, p), ⟨hp, hv⟩, rfl⟩, ?_⟩
  rintro h ⟨⟨v, q⟩, ⟨hp, hv⟩, rfl⟩
  exact h v hv hp

/-- The completion of a layout completes the placements that the layout has. -/
theorem completes_completeLayout : (completeLayout l n).Completes n fun v p => (v, p) ∈ l.pairs := by
  have hunplaced : (l.unplaced n).Pairwise (· < ·) := pairwise_absentBelow _ _
  have hfree : (l.free n).Pairwise (· < ·) := pairwise_absentBelow _ _
  have hfilled (v p : Nat) (hv : IsUnasked (fun v p => (v, p) ∈ l.pairs) v)
      (hp : (completeLayout l n).physical? v = some p) : (v, p) ∈ (l.unplaced n).zip (l.free n) := by
    rw [Layout.physical?_eq_some_iff, mem_completeLayout] at hp
    exact hp.resolve_left fun hbelow => hv p (List.mem_of_mem_filter hbelow)
  constructor
  case injective =>
    intro v w p hv hw
    rw [Layout.physical?_eq_some_iff] at hv hw
    exact congrArg Prod.fst ((completeLayout l n).injective _ hv _ hw rfl)
  case isSome_iff =>
    intro v
    rw [Option.isSome_iff_exists]
    simp only [Layout.physical?_eq_some_iff]
    constructor
    · rintro ⟨p, hp⟩
      exact (lt_of_mem_completeLayout l n 0 hp).1
    · exact exists_mem_completeLayout l n
  case keeps =>
    intro v hv p hp
    rw [Layout.physical?_eq_some_iff, mem_completeLayout]
    exact .inl (List.mem_filter.mpr ⟨hp, decide_eq_true hv⟩)
  case ascending =>
    intro v w p q hv hw hp hq hlt
    exact lt_of_mem_zip hunplaced hfree (hfilled v p hv hp) (hfilled w q hw hq) hlt
  case isLeftOver =>
    intro v p hv hp
    exact ((l.mem_free n).mp (List.of_mem_zip (hfilled v p hv hp)).2).2
  case lowest =>
    intro v p hv hp q hq hleft
    have hzip := hfilled v p hv hp
    have hpn : p < n := ((l.mem_free n).mp (List.of_mem_zip hzip).2).1
    obtain ⟨w, hw⟩ := exists_mem_zip_of_lt hfree hzip ((l.mem_free n).mpr ⟨hq.trans hpn, hleft⟩) hq
    refine ⟨w, ((l.mem_unplaced n).mp (List.of_mem_zip hw).1).2, ?_⟩
    rw [Layout.physical?_eq_some_iff, mem_completeLayout]
    exact .inr hw

end Completion

section Instructions

variable {α : Type} {c out : Circuit α} {l : Layout} {numPhysical : Nat}

/-- Whether an instruction is another one with every qubit replaced by its position. -/
structure Instruction.MovedBy (l : Layout) (i j : Instruction α) : Prop where
  name_eq : j.name = i.name
  clbits_eq : j.clbits = i.clbits
  params_eq : j.params = i.params
  qubits : List.Forall₂ (fun q p => l.physical? q = some p) i.qubits j.qubits

theorem Circuit.Fits.movedBy_place {i : Instruction α} (hi : c.Fits i) (l : Layout) :
    i.MovedBy (completeLayout l c.numQubits) (i.place (completeLayout l c.numQubits)) := by
  refine ⟨rfl, rfl, rfl, ?_⟩
  rw [Instruction.place, Instruction.onQubits, List.forall₂_map_right_iff, List.forall₂_same]
  exact fun q hq => Layout.physical?_eq_some_iff.mpr (Circuit.position_spec l (hi.qubits_lt q hq))

theorem Circuit.WellFormed.movedBy_place (hc : c.WellFormed) (h : c.place l numPhysical = .ok out) :
    List.Forall₂ (Instruction.MovedBy (completeLayout l c.numQubits)) c.instructions out.instructions := by
  obtain ⟨-, rfl⟩ := Circuit.place_eq_ok_iff.mp h
  exact List.forall₂_map_right_iff.mpr (List.forall₂_same.mpr fun i hi => (hc.fits hi).movedBy_place l)

end Instructions

/-- Every qubit of a map is filled once. -/
theorem CouplingMap.perm_fillOrder (m : CouplingMap) : m.fillOrder.Perm (List.range m.numQubits) := by
  have hreached : ((m.hub?.elim [] m.trails).map (·.last)).Nodup := by
    cases m.hub? with
    | none => exact List.nodup_nil
    | some start => exact (m.trails_spec start).1
  have hnd : m.fillOrder.Nodup := by
    refine List.nodup_append.mpr ⟨hreached, nodup_absentBelow _ _, ?_⟩
    rintro q hq p hp rfl
    exact (mem_absentBelow.mp hp).2 hq
  refine (List.perm_ext_iff_of_nodup hnd List.nodup_range).mpr fun q => ?_
  rw [List.mem_range]
  constructor
  · exact Circuit.lt_of_mem_fillOrder
  · intro hq
    by_cases h : q ∈ (m.hub?.elim [] m.trails).map (·.last)
    · exact List.mem_append_left _ h
    · exact List.mem_append_right _ (mem_absentBelow.mpr ⟨hq, h⟩)

/-- The passes that place circuits. -/
inductive PlacementPass where
  | given (layout : Layout) (numPhysical : Option Nat)
  | trivial (numPhysical : Option Nat)
  | dense (map : CouplingMap)

namespace PlacementPass

def pass : PlacementPass → Pass
  | given layout numPhysical => .setLayout layout numPhysical
  | trivial numPhysical => .trivialLayout numPhysical
  | dense map => .denseLayout map

/-- The largest circuit that a pass has room for. Where the size of the device is not known, the circuit has it. -/
def room (c : Circuit Float) : PlacementPass → Nat
  | given _ numPhysical | trivial numPhysical => numPhysical.getD c.numQubits
  | dense map => map.numQubits

/-- The positions that a pass asks for. -/
def Asks (c : Circuit Float) : PlacementPass → Nat → Nat → Prop
  | given layout _, v, p => layout.physical? v = some p
  | trivial _, v, p => v < c.numQubits ∧ p = v
  | dense map, v, p => v < c.numQubits ∧ map.fillOrder[v]? = some p

/-- The positions that a pass asks for, as a layout. -/
def layout (c : Circuit Float) : PlacementPass → Layout
  | given layout _ => layout
  | trivial _ => .trivial c.numQubits
  | dense map => .ofPairs ((map.fillOrder.take c.numQubits).zipIdx.map fun e => (e.2, e.1))

variable {c : Circuit Float}

theorem run_pass (p : PlacementPass) (c : Circuit Float) :
    p.pass.run c = .ofCircuit c (c.place (p.layout c) (p.room c)) := by
  cases p with
  | given | trivial | dense =>
    rw [pass, Pass.run]
    rfl

theorem mem_layout_iff (p : PlacementPass) (c : Circuit Float) (v q : Nat) :
    (v, q) ∈ (p.layout c).pairs ↔ p.Asks c v q := by
  cases p with
  | given => exact Layout.physical?_eq_some_iff.symm
  | trivial =>
    simp only [layout, Layout.trivial, Asks, List.mem_map, List.mem_range, Prod.mk.injEq]
    constructor
    · rintro ⟨k, hk, rfl, rfl⟩
      exact ⟨hk, rfl⟩
    · rintro ⟨hv, rfl⟩
      exact ⟨q, hv, rfl, rfl⟩
  | dense map =>
    have hnd : (map.fillOrder.take c.numQubits).Nodup :=
      (map.perm_fillOrder.nodup_iff.mpr List.nodup_range).sublist (List.take_sublist _ _)
    rw [layout, Layout.mem_ofPairs]
    · simp only [List.mem_map, Prod.mk.injEq, Prod.exists, List.mk_mem_zipIdx_iff_getElem?, List.getElem?_take,
        Option.ite_none_right_eq_some, Asks]
      constructor
      · rintro ⟨p, k, hk, rfl, rfl⟩
        exact hk
      · intro h
        exact ⟨q, v, h, rfl, rfl⟩
    · rw [List.map_map]
      exact (List.zipIdx_map_snd 0 _).symm ▸ List.nodup_range'
    · rw [List.map_map]
      exact (List.zipIdx_map_fst 0 _).symm ▸ hnd

/-- Placement is a faithful relabelling. It fails exactly on circuits with more qubits than it has room for, and leaves
these alone. Otherwise it records a layout that completes the placements asked for, and moves every instruction along
this layout, while the circuit keeps all else but its schedule. The pass at work on the circuit in place does just that,
as long as all sizes are in range. -/
theorem run_relabels (p : PlacementPass) (hc : c.WellFormed) :
    ((p.pass.run c).isFailure = true ↔ p.room c < c.numQubits) ∧
    (∀ e, (p.pass.run c).error = some e → (p.pass.run c).circuit = c ∧
      e = .circuit (.layoutMismatch (.deviceTooSmall c.numQubits (p.room c)))) ∧
    (∀ d, p.pass.run c = .success d → ∃ l, l.Completes c.numQubits (p.Asks c) ∧
      List.Forall₂ (Instruction.MovedBy l) c.instructions d.instructions ∧
      d = { c with
        numQubits := d.numQubits, instructions := d.instructions, layout := some l, startTimes := none } ∧
      p.room c ≤ d.numQubits ∧ d.WellFormed) ∧
    (p.pass.InRange → c.InRange → p.pass.edit.apply c = some ((p.pass.run c).ending, (p.pass.run c).circuit)) := by
  refine ⟨?_, ?_, ?_, fun hp hrange => Pass.endsAs_edit p.pass hp hc hrange⟩
  · rw [p.run_pass, Circuit.place]
    split
    next h => exact iff_of_true rfl h
    next h => exact iff_of_false Bool.false_ne_true h
  · intro e he
    rw [p.run_pass, Circuit.place] at he ⊢
    split at he
    next h =>
      rw [if_pos h]
      exact ⟨rfl, (Option.some.inj he).symm⟩
    next => cases he
  · intro d hd
    rw [p.run_pass, Outcome.ofCircuit_eq_success] at hd
    have hcompletes := completes_completeLayout (p.layout c) c.numQubits
    simp only [p.mem_layout_iff] at hcompletes
    refine ⟨_, hcompletes, hc.movedBy_place hd, ?_, ?_, hc.place hd⟩
    · obtain ⟨-, rfl⟩ := Circuit.place_eq_ok_iff.mp hd
      rfl
    · obtain ⟨-, rfl⟩ := Circuit.place_eq_ok_iff.mp hd
      exact (Nat.le_max_left _ _).trans (Nat.le_max_left _ _)

/-- Positions for two of three qubits and for a qubit that the circuit does not have, which lies beyond the device. -/
def beyond : PlacementPass := given (((Layout.empty.add 0 3).add 2 0).add 7 5) (some 4)

theorem run_relabels_beyond : (Circuit.ghz 3 : Circuit Float).WellFormed ∧
    (∃ d l, beyond.pass.run (.ghz 3) = .success d ∧ d.layout = some l ∧
      l.Completes 3 (beyond.Asks (.ghz 3)) ∧ l.physical? 0 = some 3 ∧ l.physical? 2 = some 0 ∧
      List.Forall₂ (Instruction.MovedBy l) (Circuit.ghz 3).instructions d.instructions ∧
      beyond.pass.edit.apply (.ghz 3) = some (.ok (), d)) ∧
    ((trivial (some 2)).pass.run (.ghz 3)).error = some (.circuit (.layoutMismatch (.deviceTooSmall 3 2))) ∧
    ((trivial (some 2)).pass.run (.ghz 3)).circuit = .ghz 3 := by
  have hc : (Circuit.ghz 3 : Circuit Float).WellFormed := Circuit.wellFormed_ghz 3
  refine ⟨hc, ?_, ?_⟩
  · obtain ⟨hfails, -, hmoves, hends⟩ := run_relabels beyond hc
    have hfits : (beyond.pass.run (.ghz 3)).isFailure = false := by
      rw [← Bool.not_eq_true, hfails]
      decide
    have hd := Outcome.eq_success_of_not_isFailure hfits
    obtain ⟨l, hcompletes, hmoved, hcircuit, -⟩ := hmoves _ hd
    refine ⟨_, l, hd, congrArg Circuit.layout hcircuit, hcompletes, ?_, ?_, hmoved, ?_⟩
    · exact hcompletes.keeps 0 (by decide) 3 rfl
    · exact hcompletes.keeps 2 (by decide) 0 rfl
    · have hedit := hends (by decide) ⟨by decide, by decide⟩
      rw [hd] at hedit
      exact hedit
  · obtain ⟨hfails, hfailed, -⟩ := run_relabels (trivial (some 2)) hc
    have hfailure : ((trivial (some 2)).pass.run (.ghz 3)).isFailure = true := hfails.mpr (by decide)
    obtain ⟨e, he⟩ := Option.isSome_iff_exists.mp hfailure
    obtain ⟨hsame, rfl⟩ := hfailed e he
    exact ⟨he, hsame⟩

end PlacementPass

end CircuitStages
