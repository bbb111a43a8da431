import CircuitStages.Proofs.Circuit.Encoding
import CircuitStages.Proofs.Pass.InRange
import CircuitStages.Proofs.Tables.Layout

namespace CircuitStages

theorem le_of_requiredField {fields : List (String × Node)} {name : String} {k : Nat}
    (h : requiredField fields name Node.asNat = .ok k) : k ≤ Node.maxIndex := by
  rw [requiredField] at h
  split at h
  next => exact Node.le_of_asNat h
  next => cases h

/-- A circuit that has been read is well-formed and in range. -/
theorem Circuit.wellFormed_of_ofNode {n : Node} {c : Circuit Float} (h : ofNode n = .ok c) :
    c.WellFormed ∧ c.InRange := by
  simp only [ofNode, bind_eq_ok, rejectFault_eq_ok_iff, ofParts_eq_ok_iff] at h
  obtain ⟨fields, -, name, -, numQubits, hqubits, numClbits, hclbits, is, -, layout, -, finalLayout, -, times, -, rfl,
    hwell⟩ := h
  exact ⟨hwell, le_of_requiredField hqubits, le_of_requiredField hclbits⟩

/-- Tables come about again from the pairs that they list. -/
theorem LayoutTables.Built.ofDistinct_entries {t : LayoutTables} {l : Layout} (h : t.Built l) :
    ofDistinct t.entries = .ok t := by
  have hkeeps := Keeps.ofPairs l.pairs
  rw [l.ofPairs_pairs] at hkeeps
  have hconflicts : meetsAgain [] [] l.pairs = false := by
    rw [meetsAgain_eq, Layout.hasConflicts_eq_false_iff]
    exact ⟨l.nodup_virtual, l.nodup_physical⟩
  rw [h.keeps.entries_eq, ofDistinct, hconflicts, hkeeps.unique h.keeps]
  rfl

/-- Every layout is read back from its pairs, also where it is kept in tables. Pairs are read exactly if no qubit of
either side occurs twice, and written back sorted by virtual qubit. A document is read as a circuit exactly if all that
it says passes the checks, and then as the circuit with its fields. Every circuit that comes about from one that has
been read, by passes which may fail but ask for no size beyond the largest index, comes back as it is if all its numbers
are finite: from its document, and from its JSON text if that is a text from which its numbers come back. -/
theorem encoding_roundTrip :
    (∀ l : Layout, (∀ e ∈ l.pairs, e.1 ≤ Node.maxIndex ∧ e.2 ≤ Node.maxIndex) →
      Layout.ofNode l.toValue.toNode = .ok l) ∧
    (∀ (t : LayoutTables) (l : Layout), t.Built l →
      t.entries = l.pairs ∧ LayoutTables.ofDistinct t.entries = .ok t) ∧
    (∀ pairs : List (Nat × Nat), (∀ e ∈ pairs, e.1 ≤ Node.maxIndex ∧ e.2 ≤ Node.maxIndex) →
      ((∃ l, Layout.ofNode (Value.ofPairs pairs).toNode = .ok l) ↔ (pairs.map (·.1)).Nodup ∧ (pairs.map (·.2)).Nodup) ∧
      ∀ l, Layout.ofNode (Value.ofPairs pairs).toNode = .ok l →
        l.toValue = .ofPairs (pairs.mergeSort fun a b => a.1 ≤ b.1)) ∧
    (∀ n c, Circuit.ofNode n = .ok c ↔ ∃ r, CircuitRecord.ofNode n = .ok r ∧ r.Accepted ∧ c = r.circuit) ∧
    ∀ n c ps, Circuit.ofNode n = .ok c → (∀ p ∈ ps, Pass.InRange p) → (Pass.runEach ps c).Finite →
      Circuit.ofNode (Pass.runEach ps c).toValue.toNode = .ok (Pass.runEach ps c) ∧
      ∀ numbers, (Pass.runEach ps c).Survives numbers →
        Circuit.ofText numbers ((Pass.runEach ps c).toText numbers) = .ok (Pass.runEach ps c) := by
  refine ⟨fun l hl => Layout.ofNode_toNode hl, fun t l h => ⟨h.keeps.entries_eq, h.ofDistinct_entries⟩,
    fun pairs hpairs => ?_, fun n c => Circuit.ofNode_eq_ok_iff, fun n c ps hread hps hfinite => ?_⟩
  · have hread (l : Layout) : Layout.ofNode (Value.ofPairs pairs).toNode = .ok l ↔
        Layout.Distinct pairs ∧ l = Layout.ofPairs pairs := by
      have hpairs : (Value.ofPairs pairs).toNode.asPlacements = .ok pairs := Node.asPairs_toNode hpairs
      rw [Layout.ofNode_eq_ok_iff, hpairs, ← Layout.ofDistinct_eq_ok_iff]
      simp
    refine ⟨⟨?_, fun h => ?_⟩, fun l hl => ?_⟩
    · rintro ⟨l, hl⟩
      obtain ⟨hdistinct, -⟩ := (hread l).mp hl
      exact ⟨hdistinct.virtual, hdistinct.physical⟩
    · exact ⟨_, (hread _).mpr ⟨⟨h.1, h.2⟩, rfl⟩⟩
    · obtain ⟨hdistinct, rfl⟩ := (hread l).mp hl
      rw [Layout.toValue, Layout.pairs_ofPairs hdistinct]
  · obtain ⟨hwell, hrange⟩ := Circuit.wellFormed_of_ofNode hread
    have hwellOut : (Pass.runEach ps c).WellFormed := Pass.invariant_runEach (fun p _ _ => p.wellFormed_run) hwell
    have hrangeOut : (Pass.runEach ps c).InRange :=
      Pass.invariant_runEach (fun p hp _ => Pass.inRange_run (hps p hp)) hrange
    refine ⟨Circuit.ofNode_toNode hwellOut hrangeOut.numQubits_le hrangeOut.numClbits_le hfinite, ?_⟩
    exact fun numbers => Circuit.ofText_toText hwellOut hrangeOut.numQubits_le hrangeOut.numClbits_le hfinite

theorem Circuit.Finite.of_no_numbers {c : Circuit Float} (hparams : c.instructions.all (·.params.isEmpty) = true)
    (htimes : c.startTimes = none) : c.Finite := by
  constructor
  · intro i hi x hx
    have hnone := List.isEmpty_iff.mp (List.all_eq_true.mp hparams i hi)
    rw [hnone] at hx
    cases hx
  · rw [htimes]
    exact nofun

/-- Routing over the middle of a star, and placement on a device that is too small. -/
def Pass.routeThenFail : List Pass := [basicRouting (some (.star 4)), trivialLayout (some 2)]

/-- All digits are read as one whole number, which is then multiplied or divided once by a power of ten. -/
def NumberText.quick : NumberText where
  write := DecimalStyle.dataText.write
  eval? whole fraction exponent :=
    let digits := Float.ofNat (Numeral.digitsValue (whole ++ fraction))
    let scale : Int := exponent.getD 0 - fraction.length
    let x := if 0 ≤ scale then digits * Float.ofNat (Nat.pow 10 scale.toNat)
      else digits / Float.ofNat (Nat.pow 10 (-scale).toNat)
    if x.isFinite then some x else none

/-- Two turns about one axis, and a delay next to them. -/
def Circuit.turning : Circuit Float where
  name := "turning"
  numQubits := 2
  numClbits := 1
  instructions := [.rz 0.25 0, .rz 0.5 0, .h 0, .delay 2.5 1, .measure 0 0]
  layout := none
  finalLayout := none
  startTimes := none

def Pass.mergeThenSchedule : List Pass := [mergeRotations, schedule .alap none]

theorem Circuit.wellFormed_turning : turning.WellFormed := by
  constructor <;> decide

theorem encoding_roundTrip_ghz :
    Layout.ofNode (Layout.ofPairs [(2, 0), (0, 5)]).toValue.toNode = .ok (.ofPairs [(2, 0), (0, 5)]) ∧
      LayoutTables.ofDistinct (LayoutTables.ofPairs [(2, 0), (0, 5)]).entries = .ok (.ofPairs [(2, 0), (0, 5)]) ∧
      (∃ l, Layout.ofNode (Value.ofPairs [(2, 0), (0, 5)]).toNode = .ok l) ∧
      Circuit.ofNode (Circuit.ghz 3).toValue.toNode = .ok (Circuit.ghz 3) ∧
      (Pass.runEach Pass.routeThenFail (.ghz 3)).numOps = 7 ∧
      (Pass.runEach Pass.routeThenFail (.ghz 3)).finalLayout.isSome ∧
      Circuit.ofNode (Pass.runEach Pass.routeThenFail (.ghz 3)).toValue.toNode =
        .ok (Pass.runEach Pass.routeThenFail (.ghz 3)) ∧
      (Pass.runEach Pass.mergeThenSchedule .turning).instructions.map (·.params) = [[0.75], [], [2.5], []] ∧
      (Pass.runEach Pass.mergeThenSchedule .turning).startTimes = some [0.0, 1.0, 0.5, 2.0] ∧
      Circuit.ofText .quick ((Pass.runEach Pass.mergeThenSchedule .turning).toText .quick) =
        .ok (Pass.runEach Pass.mergeThenSchedule .turning) := by
  obtain ⟨hlayout, htables, hpairs, -, hpasses⟩ := encoding_roundTrip
  have hbelow : ∀ e ∈ [(2, 0), (0, 5)], e.1 ≤ Node.maxIndex ∧ e.2 ≤ Node.maxIndex := by decide
  have hkept : ∀ e ∈ (Layout.ofPairs [(2, 0), (0, 5)]).pairs, e.1 ≤ Node.maxIndex ∧ e.2 ≤ Node.maxIndex :=
    fun e he => hbelow e ((Layout.mem_ofPairs (by decide) (by decide)).mp he)
  have hghz : (Circuit.ghz 3 : Circuit Float).Finite := .of_no_numbers (by decide) rfl
  have hread : Circuit.ofNode (Circuit.ghz 3).toValue.toNode = .ok (Circuit.ghz 3) :=
    Circuit.ofNode_toNode (Circuit.wellFormed_ghz 3) (by decide) (by decide) hghz
  have hps : ∀ p ∈ Pass.routeThenFail, p.InRange := by decide
  have hout : (Pass.runEach Pass.routeThenFail (.ghz 3)).Finite := .of_no_numbers (by decide +kernel) rfl
  have hparams :
      (Pass.runEach Pass.mergeThenSchedule .turning).instructions.map (·.params) = [[0.75], [], [2.5], []] := by
    decide +kernel
  have htimes : (Pass.runEach Pass.mergeThenSchedule .turning).startTimes = some [0.0, 1.0, 0.5, 2.0] := by
    decide +kernel
  refine ⟨hlayout _ hkept, (htables _ _ (.ofPairs _)).2, ?_, hread, by decide +kernel, rfl, ?_, hparams, htimes, ?_⟩
  · exact (hpairs _ hbelow).1.mpr ⟨by decide, by decide⟩
  · exact (hpasses _ _ _ hread hps hout).1
  · have hturning : Circuit.turning.Finite := ⟨by decide +kernel, nofun⟩
    have hreadTurning : Circuit.ofNode Circuit.turning.toValue.toNode = .ok .turning :=
      Circuit.ofNode_toNode Circuit.wellFormed_turning (by decide) (by decide) hturning
    have hfinite : (Pass.runEach Pass.mergeThenSchedule .turning).Finite := by
      refine ⟨by decide +kernel, fun times ht => ?_⟩
      rw [htimes] at ht
      cases ht
      decide +kernel
    have hsurvives : (Pass.runEach Pass.mergeThenSchedule .turning).Survives .quick := by
      refine ⟨by decide +kernel, fun times ht => ?_⟩
      rw [htimes] at ht
      cases ht
      decide +kernel
    exact (hpasses _ _ _ hreadTurning (by decide) hfinite).2 .quick hsurvives

-- the sum of two short angles can have more digits than the quick reader gets right
example : DecimalStyle.dataText.write (0.1 + 1.3) = "1.4000000000000001" ∧
    NumberText.quick.readBack? (0.1 + 1.3) = some 1.4 := by
  decide +kernel

end CircuitStages
