import CircuitStages.Proofs.Pass.InRange
import CircuitStages.Proofs.Stage.Sizes
import CircuitStages.Proofs.Tables.Edit

namespace CircuitStages

section Schedule

variable {α : Type} [Duration α] {c : Circuit α}

def Circuit.startTimesOnTables? (c : Circuit α) (policy : SchedulingPolicy) (target : Option (Target α)) :
    Option (List α) := do
  let clocks : Clocks α := ⟨Array.replicate c.numQubits 0, Array.replicate c.numClbits 0⟩
  match policy with
  | .asap => do
    let found ← slotsOnTables? (instructionDuration target) clocks c.instructions
    pure (found.map (·.1))
  | .alap => do
    let found ← slotsOnTables? (instructionDuration target) clocks c.instructions.reverse
    let ends := (found.map (·.2)).reverse
    pure (ends.map (latest ends - ·))

/-- On a well-formed circuit, a schedule has one time per instruction. -/
theorem Circuit.WellFormed.exists_startTimesOnTables? (hc : c.WellFormed) (policy : SchedulingPolicy)
    (target : Option (Target α)) : ∃ times, c.startTimesOnTables? policy target = some times ∧
      c.setStartTimes times = .ok (c.schedule policy target) := by
  have hsplit : c.scheduleOnTables? policy target =
      (c.startTimesOnTables? policy target).bind fun times => (c.setStartTimes times).toOption := by
    cases policy <;> simp [scheduleOnTables?, startTimesOnTables?, Option.bind_assoc]
  rw [hc.scheduleOnTables?_eq] at hsplit
  obtain ⟨times, htimes, hset⟩ := Option.bind_eq_some_iff.mp hsplit.symm
  exact ⟨times, htimes, toOption_eq_some.mp hset⟩

end Schedule

namespace Pass

mutual

/-- A pass at work on a circuit. -/
def edit : Pass → Edit Unit
  | cancelInverses => .rewrite fun n is => liftM (peepholeOnTables? cancelPair n is)
  | mergeRotations => .rewrite fun n is => liftM (peepholeOnTables? mergePair n is)
  | optimizationLoop body maxRounds => do
    let c ← get
    let size ← .access c.sizeOnTable?
    .repeatShrinking (editAll body) maxRounds size
  | controlFlowCheck check => do
    let c ← get
    match check.run c with
    | .ok () => pure ()
    | .error e => throw (.config e)
  | removeResets => .rewrite fun _ is => pure (removeLeadingResets is)
  | setLayout layout numPhysical => do
    let c ← get
    .place layout (numPhysical.getD c.numQubits)
  | trivialLayout numPhysical => do
    let c ← get
    .place (.trivial c.numQubits) (numPhysical.getD c.numQubits)
  | denseLayout map => do
    .checkSize map.numQubits
    let c ← get
    let region := map.fillOrder.take c.numQubits
    .place (.ofPairs (region.zipIdx.map fun e => (e.2, e.1))) map.numQubits
  | basicRouting map => .route (fun m c => routeBasicOnTables? m c.numQubits c.instructions) map
  | lookaheadRouting map => .route (fun m c => routeLookaheadOnTables? m c.numQubits c.numClbits c.instructions) map
  | checkRouting map => do
    let c ← get
    match map.bind c.firstUnrouted? with
    | some (name, a, b) => throw (.circuit (.unroutable name a b))
    | none => modify Circuit.keepPlacement
  | basisTranslation none => pure ()
  | basisTranslation (some basis) => .rewrite fun _ is => translateChecked basis is
  | gateDirection target map => .rewrite fun _ is => .ofExcept (directGates (hasDirection target map) is)
  | Pass.schedule policy target => do
    let c ← get
    let times ← .access (c.startTimesOnTables? policy target)
    .update (·.setStartTimes times)
  | reduceWide target basis _ => .rewrite fun _ is => .ofExcept (CircuitStages.reduceWide (isNative target basis) is)
  | marker _ => pure ()

def editAll : List Pass → Edit Unit
  | [] => pure ()
  | p :: rest => do
    let c ← get
    if p.shouldRun c then do
      p.edit
      editAll rest
    else editAll rest

end

variable {p : Pass} {c d : Circuit Float} {e : StageError}

/-- Whether a pass comes to a fault on a circuit, which only a placement out of range does. -/
structure Faults (p : Pass) (c : Circuit Float) : Prop where
  apply_eq_none : p.edit.apply c = none
  isMapping : p.isMapping = true
  not_inRange : ¬(p.InRange ∧ c.InRange)

theorem edit_cases_of_place {l : Layout} {numPhysical : Nat} (hc : c.WellFormed) (hp : p.isMapping = true)
    (hedit : p.edit.apply c = (Edit.place l numPhysical).apply c)
    (hrun : p.run c = .ofCircuit c (c.place l numPhysical))
    (hl : p.InRange → c.InRange → ∀ e ∈ l.pairs, e.2 + 1 ≤ Node.maxIndex) :
    p.Faults c ∨ p.edit.EndsAs c (p.run c) := by
  rcases Edit.place_cases hc l numPhysical with ⟨hfault, e, he, hlast⟩ | hends
  · refine .inl ⟨hedit.trans hfault, hp, fun hrange => ?_⟩
    exact absurd (hl hrange.1 hrange.2 e he) (Nat.not_le.mpr (Nat.lt_succ_of_le hlast))
  · refine .inr (hedit.trans ?_)
    rw [hrun]
    exact hends

/-- A pass other than a loop ends like its run, unless it places a circuit and gets out of range. -/
theorem edit_cases (hp : p.isLoop = false) (hc : c.WellFormed) : p.Faults c ∨ p.edit.EndsAs c (p.run c) := by
  cases p with
  | optimizationLoop => cases hp
  | setLayout layout numPhysical =>
    have hedit : (setLayout layout numPhysical).edit.apply c =
        (Edit.place layout (numPhysical.getD c.numQubits)).apply c := by
      rw [edit, Edit.apply_bind, Edit.apply_get]
    refine edit_cases_of_place hc rfl hedit (by rw [run, Circuit.placeGiven]) fun hrange _ e he => ?_
    exact hrange.succ_le_of_setLayout he
  | trivialLayout numPhysical =>
    have hedit : (trivialLayout numPhysical).edit.apply c =
        (Edit.place (.trivial c.numQubits) (numPhysical.getD c.numQubits)).apply c := by
      rw [edit, Edit.apply_bind, Edit.apply_get]
    refine edit_cases_of_place hc rfl hedit (by rw [run, Circuit.placeTrivially]) fun _ hrange e he => ?_
    exact (Layout.lt_of_mem_trivial he).2.trans_le hrange.numQubits_le
  | denseLayout map =>
    rcases Nat.lt_or_ge map.numQubits c.numQubits with hsize | hsize
    · right
      rw [Edit.EndsAs, edit, run, Circuit.placeDensely, Circuit.place, if_pos hsize]
      simp only [Edit.apply_bind, Edit.apply_checkSize_of_lt hsize]
      rfl
    · have hedit : (denseLayout map).edit.apply c = (Edit.place
          (.ofPairs ((map.fillOrder.take c.numQubits).zipIdx.map fun e => (e.2, e.1))) map.numQubits).apply c := by
        rw [edit]
        simp only [Edit.apply_bind, Edit.apply_checkSize_of_le hsize, Edit.apply_get]
      refine edit_cases_of_place hc rfl hedit (by rw [run, Circuit.placeDensely]) fun hrange _ e he => ?_
      exact (Circuit.lt_of_mem_region he).trans_le (hrange _ List.mem_cons_self)
  | cancelInverses =>
    right
    rw [edit, run]
    exact Edit.endsAs_peephole hc keepsOperands_cancelPair
  | mergeRotations =>
    right
    rw [edit, run]
    exact Edit.endsAs_peephole hc keepsOperands_mergePair
  | controlFlowCheck check =>
    right
    rw [Edit.EndsAs, edit, run]
    simp only [Edit.apply_bind, Edit.apply_get]
    cases check.run c <;> rfl
  | removeResets =>
    right
    rw [edit, run]
    refine Edit.endsAs_rewrite (y := .ok (removeLeadingResets c.instructions)) (.pure rfl) fun is his => ?_
    cases his
    exact hc.removeLeadingResets
  | basicRouting map =>
    right
    rw [edit, run]
    exact Edit.endsAs_route map hc (fun m d _ _ => mirrors_routeBasicOnTables? m d.numQubits d.instructions)
      fun m d s hd hm hs => hd.fitsIn_routeBasic hm hs
  | lookaheadRouting map =>
    right
    rw [edit, run]
    exact Edit.endsAs_route map hc
      (fun m d hd hm => mirrors_routeLookaheadOnTables? hd.qubits_lt hd.clbits_lt hd.qubits_nodup hm)
      fun m d s hd hm hs => hd.fitsIn_routeLookahead hm hs
  | checkRouting map =>
    right
    rw [Edit.EndsAs, edit, run, Circuit.checkRouted]
    simp only [Edit.apply_bind, Edit.apply_get]
    cases map.bind c.firstUnrouted? <;> rfl
  | basisTranslation basis =>
    right
    cases basis with
    | none =>
      rw [edit, run]
      rfl
    | some names =>
      rw [edit, run]
      exact Edit.endsAs_rewrite mirrors_translateChecked fun is his => hc.translateGates his
  | gateDirection target map =>
    right
    rw [edit, run]
    exact Edit.endsAs_rewrite (mirrors_ofExcept _) fun is his => hc.directGates his
  | schedule policy target =>
    right
    obtain ⟨times, htimes, hset⟩ := hc.exists_startTimesOnTables? policy target
    rw [Edit.EndsAs, edit, run]
    simp only [Edit.apply_bind, Edit.apply_get, Edit.apply_access, htimes, Option.map_some]
    exact Edit.apply_update hset
  | reduceWide target basis settings =>
    right
    rw [edit, run]
    exact Edit.endsAs_rewrite (mirrors_ofExcept _) fun is his => hc.reduceWide his
  | marker label =>
    right
    rw [edit, run]
    rfl

theorem endsAs_editAll {P : Circuit Float → Prop} {ps : List Pass}
    (h : ∀ p ∈ ps, ∀ c, P c → p.edit.EndsAs c (p.run c) ∧ P (p.run c).circuit) (hc : P c) :
    (editAll ps).EndsAs c (runAll ps c) := by
  induction ps generalizing c with
  | nil => rfl
  | cons p ps ih =>
    obtain ⟨hp, hrest⟩ := List.forall_mem_cons.mp h
    obtain ⟨hedit, hkept⟩ := hp c hc
    rw [Edit.EndsAs, editAll, runAll, Edit.apply_bind, Edit.apply_get]
    dsimp only
    split
    · cases hfail : (p.run c).isFailure with
      | true => exact hedit.bind_of_failure hfail
      | false =>
        rw [hedit.apply_bind_of_success hfail]
        exact ih hrest hkept
    · exact ih hrest hc

/-- Every pass works on circuits in place as its run says. -/
theorem endsAs_edit (p : Pass) (hp : p.InRange) (hc : c.WellFormed) (hrange : c.InRange) :
    p.edit.EndsAs c (p.run c) := by
  induction p using induction_on_loops generalizing c with
  | step p ih =>
    cases hloop : p.isLoop with
    | false => exact (edit_cases hloop hc).resolve_left fun hfault => hfault.not_inRange ⟨hp, hrange⟩
    | true =>
      cases p with
      | optimizationLoop body rounds =>
        have hbody := inRange_optimizationLoop.mp hp
        have hpass (q : Pass) (hq : q ∈ body) (d : Circuit Float) (hd : d.WellFormed ∧ d.InRange) :
            q.edit.EndsAs d (q.run d) ∧ (q.run d).circuit.WellFormed ∧ (q.run d).circuit.InRange :=
          ⟨ih body rounds rfl q hq (hbody q hq) hd.1 hd.2, q.wellFormed_run hd.1, inRange_run (hbody q hq) hd.2⟩
        have hround (d : Circuit Float) (hd : d.WellFormed ∧ d.InRange) : (editAll body).EndsAs d (runAll body d) ∧
            (runAll body d).circuit.WellFormed ∧ (runAll body d).circuit.InRange :=
          ⟨endsAs_editAll hpass hd, invariant_runAll (fun q hq e he => (hpass q hq e he).2) hd⟩
        have hsize : c.sizeOnTable? = some (c.depth, c.numOps) := by
          rw [Circuit.sizeOnTable?, hc.depthOnTable?_eq]
          rfl
        rw [Edit.EndsAs, edit, run]
        simp only [Edit.apply_bind, Edit.apply_get, Edit.apply_access, hsize, Option.map_some]
        exact Edit.endsAs_repeatShrinking (fun d hd => hd.1) hround rounds ⟨hc, hrange⟩
      | _ => cases hloop

section Outcomes

theorem circuit_ofCircuit {r : Except CircuitError (Circuit Float)} (h : (Outcome.ofCircuit c r).error = some e) :
    (Outcome.ofCircuit c r).circuit = c := by
  cases r with
  | ok d => cases h
  | error e => rfl

theorem circuit_ofInstructions {r : Except CircuitError (List (Instruction Float))}
    (h : (Outcome.ofInstructions c r).error = some e) :
    (Outcome.ofInstructions c r).circuit = { c with instructions := [], startTimes := none } := by
  cases r with
  | ok is => cases h
  | error e => rfl

theorem circuit_routeOn {router : CouplingMap → Nat → List (Instruction Float) → Except CircuitError (RouteState Float)}
    {map : Option CouplingMap} (h : (routeOn router map c).error = some e) : ∃ m ∈ map, (routeOn router map c).circuit =
      { c with numQubits := max c.numQubits m.numQubits, instructions := [], startTimes := none } := by
  cases map with
  | none => cases h
  | some m =>
    rw [routeOn] at h ⊢
    cases hresult : router m (c.widen m).numQubits (c.widen m).instructions with
    | error e => exact ⟨m, rfl, rfl⟩
    | ok s =>
      rw [hresult] at h
      cases h

end Outcomes

/-- What a pass other than a loop makes of a circuit when it fails, if it can fail at all. -/
def LeavesOnFailure (p : Pass) (c d : Circuit Float) : Prop :=
  match p with
  | setLayout _ _ | trivialLayout _ | denseLayout _ | checkRouting _ | controlFlowCheck _ => d = c
  | basisTranslation _ | gateDirection _ _ | reduceWide _ _ _ => d = { c with instructions := [], startTimes := none }
  | basicRouting map | lookaheadRouting map => ∃ m ∈ map,
      d = { c with numQubits := max c.numQubits m.numQubits, instructions := [], startTimes := none }
  | _ => False

/-- The passes that succeed on every circuit. -/
def neverFails : Pass → Bool
  | cancelInverses | mergeRotations | removeResets | schedule _ _ => true
  | _ => false

theorem leavesOnFailure_run (hp : p.isLoop = false) (h : (p.run c).error = some e) :
    p.LeavesOnFailure c (p.run c).circuit := by
  cases p with
  | optimizationLoop => cases hp
  | setLayout | trivialLayout | denseLayout | checkRouting =>
    rw [run] at h ⊢
    exact circuit_ofCircuit h
  | controlFlowCheck check =>
    rw [run] at h ⊢
    cases hcheck : check.run c with
    | ok => rw [hcheck] at h; cases h
    | error e => rfl
  | basicRouting | lookaheadRouting =>
    rw [run] at h ⊢
    exact circuit_routeOn h
  | basisTranslation basis =>
    cases basis with
    | none =>
      rw [run] at h
      cases h
    | some names =>
      rw [run] at h ⊢
      exact circuit_ofInstructions h
  | gateDirection | reduceWide =>
    rw [run] at h ⊢
    exact circuit_ofInstructions h
  | cancelInverses | mergeRotations | removeResets | schedule | marker =>
    rw [run] at h
    cases h

/-- A pass that fails in the middle of its work has not touched the circuit, or it has given up the instructions and the
schedule and nothing else, apart from the qubits of the device that routing adds. This is so for the run of the pass as
well, which its work follows as long as all sizes are in range. -/
theorem circuit_of_failed_edit (hp : p.isLoop = false) (hc : c.WellFormed) :
    (∀ e d, p.edit.apply c = some (.error e, d) → p.LeavesOnFailure c d) ∧
      (∀ e, (p.run c).error = some e → p.LeavesOnFailure c (p.run c).circuit) ∧
      (p.neverFails = true → ∃ d, p.edit.apply c = some (.ok (), d)) ∧
      (p.InRange → c.InRange → p.edit.apply c = some ((p.run c).ending, (p.run c).circuit)) := by
  have hrun (e : StageError) (h : (p.run c).error = some e) : p.LeavesOnFailure c (p.run c).circuit :=
    leavesOnFailure_run hp h
  refine ⟨fun e d hfailed => ?_, hrun, fun hnever => ?_, fun hrange hcrange => endsAs_edit p hrange hc hcrange⟩
  · rcases edit_cases hp hc with hfault | hends
    · rw [hfault.apply_eq_none] at hfailed
      cases hfailed
    · obtain ⟨hending, rfl⟩ := Prod.mk.inj (Option.some.inj (hends.symm.trans hfailed))
      exact hrun e (Outcome.ending_eq_error_iff.mp hending)
  · have hends : p.edit.EndsAs c (p.run c) := by
      refine (edit_cases hp hc).resolve_left fun hfault => ?_
      have hmapping := hfault.isMapping
      cases p <;> cases hnever <;> cases hmapping
    cases hending : (p.run c).ending with
    | ok => exact ⟨(p.run c).circuit, by rw [hends, hending]⟩
    | error e =>
      have hleft := hrun e (Outcome.ending_eq_error_iff.mp hending)
      cases p <;> cases hnever <;> cases hleft

/-- Routing on four positions, of which only the first two are linked. -/
def routeApart : Pass := basicRouting (some ((CouplingMap.linear 2).grow 4))

/-- The last gate on two qubits has no path between its operands, after all before it have been routed. -/
theorem circuit_of_failed_edit_ghz : routeApart.isLoop = false ∧ (Circuit.ghz 3 : Circuit Float).WellFormed ∧
    routeApart.edit.apply (.ghz 3) = some (.error (.circuit (.unroutable "cx" 1 2)),
      { (Circuit.ghz 3).withInstructions [] with numQubits := 4 }) ∧
    routeApart.LeavesOnFailure (.ghz 3) { (Circuit.ghz 3).withInstructions [] with numQubits := 4 } ∧
    routeApart.LeavesOnFailure (.ghz 3) (routeApart.run (.ghz 3)).circuit ∧
    routeApart.edit.apply (.ghz 3) = some ((routeApart.run (.ghz 3)).ending, (routeApart.run (.ghz 3)).circuit) ∧
    ∃ d, cancelInverses.edit.apply (.ghz 3) = some (.ok (), d) := by
  have hc : (Circuit.ghz 3 : Circuit Float).WellFormed := Circuit.wellFormed_ghz 3
  have hedit : routeApart.edit.apply (.ghz 3) = some (.error (.circuit (.unroutable "cx" 1 2)),
      { (Circuit.ghz 3).withInstructions [] with numQubits := 4 }) := rfl
  have hrun : (routeApart.run (.ghz 3)).error = some (.circuit (.unroutable "cx" 1 2)) := rfl
  have hrange : (Circuit.ghz 3 : Circuit Float).InRange := ⟨by decide, by decide⟩
  obtain ⟨hfailed, hfailedRun, -, hends⟩ := circuit_of_failed_edit (rfl : routeApart.isLoop = false) hc
  obtain ⟨-, -, hnever, -⟩ := circuit_of_failed_edit (rfl : cancelInverses.isLoop = false) hc
  exact ⟨rfl, hc, hedit, hfailed _ _ hedit, hfailedRun _ hrun, hends (by decide) hrange, hnever rfl⟩

end Pass

end CircuitStages
