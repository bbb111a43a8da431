import CircuitStages.Proofs.Tables.Clocks
import CircuitStages.Proofs.Tables.Lookahead
import CircuitStages.Proofs.Tables.Peephole
import CircuitStages.Proofs.Tables.Translation

namespace CircuitStages

namespace Circuit

variable {α : Type} {c : Circuit α} {i : Instruction α} {is : List (Instruction α)} {l : Layout} {numPhysical : Nat}

/-- The circuit with other instructions in the place of its own, which it has given away; all of them are checked. -/
def setChecked? (c : Circuit α) (is : List (Instruction α)) : Option (Circuit α) :=
  ((c.withInstructions []).setInstructions is).toOption

def widenChecked? (c : Circuit α) (m : CouplingMap) : Option (Circuit α) :=
  if c.numQubits < m.numQubits then (c.expandQubits m.numQubits).toOption else some c

def finishChecked? (c : Circuit α) (s : RouteState α) : Option (Circuit α) := do
  let done ← c.setChecked? (s.steps.reverse.map (·.toInstruction))
  pure { done with finalLayout := some (.ofPairs (c.initialLayout.pairs.map fun e => (e.1, s.position e.2))) }

theorem setChecked?_eq (h : ∀ i ∈ is, c.Fits i) : c.setChecked? is = some (c.withInstructions is) :=
  toOption_eq_some.mpr (setInstructions_eq_ok_iff.mpr ⟨fun i hi => (h i hi).congr rfl rfl, rfl⟩)

theorem widenChecked?_eq (m : CouplingMap) : c.widenChecked? m = some (c.widen m) := by
  rw [widenChecked?, widen]
  split
  next h =>
    rw [expandQubits_eq_ok (Nat.le_of_lt h), Nat.max_eq_right (Nat.le_of_lt h)]
    rfl
  next h => rw [Nat.max_eq_left (Nat.le_of_not_lt h)]

theorem finishChecked?_eq {s : RouteState α} (hs : s.FitsIn c) : c.finishChecked? s = some (c.finishRoute s) := by
  have hfits : ∀ i ∈ s.steps.reverse.map (·.toInstruction), c.Fits i := by
    intro i hi
    obtain ⟨st, hst, rfl⟩ := List.mem_map.mp hi
    exact hs.fits st (List.mem_reverse.mp hst)
  rw [finishChecked?, setChecked?_eq hfits]
  rfl

end Circuit

section Placement

variable {α : Type} {c : Circuit α} {l : Layout} {numPhysical : Nat}

/-- The completed layout, unless there are fewer free positions than virtual qubits left over. -/
def completeChecked? (l : Layout) (numVirtual : Nat) : Option Layout :=
  if (l.free numVirtual).length < (l.unplaced numVirtual).length then none else some (completeLayout l numVirtual)

/-- The instruction on the positions of its qubits, all of which need one. -/
def Instruction.placeChecked? (l : Layout) (i : Instruction α) : Option (Instruction α) :=
  (i.qubits.mapM l.physical?).map i.onQubits

def Circuit.placeChecked (c : Circuit α) (l : Layout) (numPhysical : Nat) : Checked CircuitError (Circuit α) :=
  if numPhysical < c.numQubits then throw (.layoutMismatch (.deviceTooSmall c.numQubits numPhysical))
  else do
    let layout ← completeChecked? l c.numQubits
    let placed ← (c.instructions.mapM (·.placeChecked? layout) : Option (List (Instruction α)))
    let wide ← ((c.withInstructions []).expandQubits (placedSize l c.numQubits numPhysical)).toOption
    let done ← wide.setChecked? placed
    pure { done with layout := some layout }

theorem Circuit.WellFormed.placeChecked?_eq (hc : c.WellFormed) {i : Instruction α} (hi : i ∈ c.instructions) :
    i.placeChecked? (completeLayout l c.numQubits) = some (i.place (completeLayout l c.numQubits)) := by
  have hfound : i.qubits.mapM (completeLayout l c.numQubits).physical? =
      some (i.qubits.map fun q => ((completeLayout l c.numQubits).physical? q).getD q) :=
    mapM_eq_some_map fun q hq => Layout.physical?_eq_some_iff.mpr (Circuit.position_spec l (hc.qubits_lt i hi q hq))
  rw [Instruction.placeChecked?, hfound]
  rfl

theorem Circuit.WellFormed.mirrors_placeChecked (hc : c.WellFormed) :
    Mirrors Eq (c.placeChecked l numPhysical) (c.place l numPhysical) := by
  rw [placeChecked, Circuit.place]
  split
  next => exact .throw _
  next hfit =>
    have hplaced := hc.place (place_eq_ok_iff.mpr ⟨Nat.le_of_not_lt hfit, Eq.refl _⟩ : c.place l numPhysical = .ok _)
    have hcomplete : completeChecked? l c.numQubits = some (completeLayout l c.numQubits) :=
      if_neg (Nat.not_lt.mpr (l.length_unplaced_le c.numQubits))
    have hle : c.numQubits ≤ placedSize l c.numQubits numPhysical := (Nat.le_max_right _ _).trans (Nat.le_max_left _ _)
    have hwide := toOption_eq_some.mpr ((c.withInstructions []).expandQubits_eq_ok hle)
    refine .lift hcomplete (.lift (mapM_eq_some_map fun i hi => hc.placeChecked?_eq hi) (.lift hwide ?_))
    exact .lift (setChecked?_eq fun i hi => (hplaced.fits hi).congr rfl rfl) (.pure rfl)

end Placement

namespace Outcome

/-- The circuit with new instructions if they pass its checks, or without any if there is an error. -/
def ofChecked? (c : Circuit Float) (result : Checked CircuitError (List (Instruction Float))) : Option Outcome := do
  match ← result.run with
  | .ok is => (c.setChecked? is).map success
  | .error e => pure (failure (c.withInstructions []) (.circuit e))

theorem ofChecked?_eq {c : Circuit Float} {x : Checked CircuitError (List (Instruction Float))}
    {y : Except CircuitError (List (Instruction Float))} (h : Mirrors Eq x y)
    (hwell : ∀ is, y = .ok is → (c.withInstructions is).WellFormed) : ofChecked? c x = some (ofInstructions c y) := by
  rw [ofChecked?, mirrors_eq_iff.mp h]
  cases y with
  | error e => rfl
  | ok is =>
    have hset : c.setChecked? is = some (c.withInstructions is) :=
      Circuit.setChecked?_eq fun i hi => ((hwell is rfl).fits hi).congr rfl rfl
    exact congrArg (Option.map success) hset

end Outcome

section Routing

/-- Routes on the widened circuit, whose size and instructions are checked. -/
def routeChecked? (router : CouplingMap → Circuit Float → Checked CircuitError (RouteState Float))
    (map : Option CouplingMap) (c : Circuit Float) : Option Outcome :=
  match map with
  | none => some (.success c.keepPlacement)
  | some m => do
    let wide ← c.widenChecked? m
    match ← (router m wide).run with
    | .ok s => (wide.finishChecked? s).map .success
    | .error e => pure (.failure (wide.withInstructions []) (.circuit e))

variable {router : CouplingMap → Nat → List (Instruction Float) → Except CircuitError (RouteState Float)}
  {checked : CouplingMap → Circuit Float → Checked CircuitError (RouteState Float)} {c : Circuit Float}

theorem routeChecked?_eq (map : Option CouplingMap) (hc : c.WellFormed)
    (hrouter : ∀ m d, d.WellFormed → m.numQubits ≤ d.numQubits →
      Mirrors Eq (checked m d) (router m d.numQubits d.instructions))
    (hfits : ∀ m d s, d.WellFormed → m.numQubits ≤ d.numQubits → router m d.numQubits d.instructions = .ok s →
      s.FitsIn d) : routeChecked? checked map c = some (routeOn router map c) := by
  cases map with
  | none => rfl
  | some m =>
    have hwell := hc.widen m
    have hsize : m.numQubits ≤ (c.widen m).numQubits := Nat.le_max_right _ _
    have hrun := mirrors_eq_iff.mp (hrouter m _ hwell hsize)
    simp only [routeChecked?, routeOn, Circuit.widenChecked?_eq, Option.bind_eq_bind, Option.bind_some, hrun]
    cases hresult : router m (c.widen m).numQubits (c.widen m).instructions with
    | error e => rfl
    | ok s => exact congrArg (Option.map Outcome.success) (Circuit.finishChecked?_eq (hfits m _ s hwell hsize hresult))

end Routing

section Loop

/-- What a loop compares between rounds: the depth and the number of instructions. -/
def Circuit.sizeOnTable? {α : Type} (c : Circuit α) : Option (Nat × Nat) :=
  c.depthOnTable?.map fun depth => (depth, c.numOps)

/-- Repeats a step on a circuit of the given size, as long as rounds succeed and make it smaller. -/
def repeatChecked? (step : Circuit Float → Option Outcome) : Nat → Nat × Nat → Circuit Float → Option Outcome
  | 0, _, c => some (.success c)
  | rounds + 1, size, c => do
    let next ← step c
    if next.isFailure then pure next
    else
      let reached ← next.circuit.sizeOnTable?
      if size.1 ≤ reached.1 && size.2 ≤ reached.2 then pure next
      else repeatChecked? step rounds reached next.circuit

theorem repeatChecked?_eq {step : Circuit Float → Option Outcome} {plain : Circuit Float → Outcome}
    (hstep : ∀ c, c.WellFormed → step c = some (plain c) ∧ (plain c).circuit.WellFormed) (rounds : Nat)
    {c : Circuit Float} (hc : c.WellFormed) :
    repeatChecked? step rounds (c.depth, c.numOps) c = some (repeatShrinking plain rounds c) := by
  induction rounds generalizing c with
  | zero => rfl
  | succ rounds ih =>
    obtain ⟨hnext, hwell⟩ := hstep c hc
    have hsize : (plain c).circuit.sizeOnTable? = some ((plain c).circuit.depth, (plain c).circuit.numOps) := by
      rw [Circuit.sizeOnTable?, hwell.depthOnTable?_eq]
      rfl
    rw [repeatChecked?, hnext, repeatShrinking]
    simp only [Option.bind_eq_bind, Option.bind_some, hsize]
    cases (plain c).isFailure with
    | true => rfl
    | false =>
      simp only [Bool.false_or, Bool.false_eq_true, if_false]
      split
      · rfl
      · exact ih hwell

end Loop

namespace Pass

mutual

def runChecked? : Pass → Circuit Float → Option Outcome
  | cancelInverses, c => Outcome.ofChecked? c (peepholeOnTables? cancelPair c.numQubits c.instructions)
  | mergeRotations, c => Outcome.ofChecked? c (peepholeOnTables? mergePair c.numQubits c.instructions)
  | optimizationLoop body maxRounds, c => do
    let size ← c.sizeOnTable?
    repeatChecked? (runAllChecked? body) maxRounds size c
  | controlFlowCheck check, c => some ((controlFlowCheck check).run c)
  | removeResets, c => Outcome.ofChecked? c (pure (removeLeadingResets c.instructions))
  | setLayout layout numPhysical, c =>
    (c.placeChecked layout (numPhysical.getD c.numQubits)).run.map (.ofCircuit c)
  | trivialLayout numPhysical, c =>
    (c.placeChecked (.trivial c.numQubits) (numPhysical.getD c.numQubits)).run.map (.ofCircuit c)
  | denseLayout map, c =>
    let region := map.fillOrder.take c.numQubits
    (c.placeChecked (.ofPairs (region.zipIdx.map fun e => (e.2, e.1))) map.numQubits).run.map (.ofCircuit c)
  | basicRouting map, c => routeChecked? (fun m d => routeBasicOnTables? m d.numQubits d.instructions) map c
  | lookaheadRouting map, c =>
    routeChecked? (fun m d => routeLookaheadOnTables? m d.numQubits d.numClbits d.instructions) map c
  | checkRouting map, c => some ((checkRouting map).run c)
  | basisTranslation none, c => some (.success c)
  | basisTranslation (some basis), c => Outcome.ofChecked? c (translateChecked basis c.instructions)
  | gateDirection target map, c =>
    Outcome.ofChecked? c (.ofExcept (directGates (hasDirection target map) c.instructions))
  | Pass.schedule policy target, c => (c.scheduleOnTables? policy target).map .success
  | reduceWide target basis _, c =>
    Outcome.ofChecked? c (.ofExcept (CircuitStages.reduceWide (isNative target basis) c.instructions))
  | marker label, c => some ((marker label).run c)

def runAllChecked? : List Pass → Circuit Float → Option Outcome
  | [], c => some (.success c)
  | p :: rest, c =>
    if p.shouldRun c then do
      let next ← p.runChecked? c
      if next.isFailure then pure next else runAllChecked? rest next.circuit
    else runAllChecked? rest c

end

variable {c : Circuit Float}

theorem runAllChecked?_eq {ps : List Pass}
    (h : ∀ p ∈ ps, ∀ c : Circuit Float, c.WellFormed → p.runChecked? c = some (p.run c)) (hc : c.WellFormed) :
    runAllChecked? ps c = some (runAll ps c) := by
  induction ps generalizing c with
  | nil => rfl
  | cons p ps ih =>
    obtain ⟨hp, hrest⟩ := List.forall_mem_cons.mp h
    rw [runAllChecked?, runAll]
    split
    · simp only [hp c hc, Option.bind_eq_bind, Option.bind_some]
      split
      · rfl
      · exact ih hrest (p.wellFormed_run hc)
    · exact ih hrest hc

/-- On well-formed circuits no access of a pass is out of range, no count goes below zero, and no result is rejected. -/
theorem runChecked?_eq (p : Pass) (hc : c.WellFormed) : p.runChecked? c = some (p.run c) := by
  induction p using induction_on_loops generalizing c with
  | step p ih =>
    have hplaced (l : Layout) (numPhysical : Nat) :
        (c.placeChecked l numPhysical).run.map (Outcome.ofCircuit c) =
          some (Outcome.ofCircuit c (c.place l numPhysical)) :=
      congrArg (Option.map (Outcome.ofCircuit c)) (mirrors_eq_iff.mp hc.mirrors_placeChecked)
    have hpeephole (join : Instruction Float → Instruction Float → Joined Float) (hjoin : KeepsOperands join) :
        Outcome.ofChecked? c (peepholeOnTables? join c.numQubits c.instructions) =
          some (.success (c.withInstructions (peephole join c.instructions))) := by
      rw [peepholeOnTables?_eq hc.qubits_lt hc.qubits_nodup hjoin]
      refine Outcome.ofChecked?_eq (mirrors_eq_iff.mpr rfl) fun is his => ?_
      cases his
      exact hc.peephole hjoin
    cases p with
    | cancelInverses =>
      rw [runChecked?, run]
      exact hpeephole cancelPair keepsOperands_cancelPair
    | mergeRotations =>
      rw [runChecked?, run]
      exact hpeephole mergePair keepsOperands_mergePair
    | optimizationLoop body rounds =>
      have hround (d : Circuit Float) (hd : d.WellFormed) :
          runAllChecked? body d = some (runAll body d) ∧ (runAll body d).circuit.WellFormed :=
        ⟨runAllChecked?_eq (fun q hq e he => ih body rounds rfl q hq he) hd, wellFormed_runAll body hd⟩
      rw [runChecked?, run, Circuit.sizeOnTable?, hc.depthOnTable?_eq]
      exact repeatChecked?_eq hround rounds hc
    | controlFlowCheck check => rw [runChecked?]
    | removeResets =>
      rw [runChecked?, run]
      refine Outcome.ofChecked?_eq (.pure rfl) fun is his => ?_
      cases his
      exact hc.removeLeadingResets
    | setLayout layout numPhysical =>
      rw [runChecked?, run]
      exact hplaced _ _
    | trivialLayout numPhysical =>
      rw [runChecked?, run]
      exact hplaced _ _
    | denseLayout map =>
      rw [runChecked?, run]
      exact hplaced _ _
    | basicRouting map =>
      rw [runChecked?, run]
      exact routeChecked?_eq map hc (fun m d _ _ => mirrors_routeBasicOnTables? m d.numQubits d.instructions)
        fun m d s hd hm hs => hd.fitsIn_routeBasic hm hs
    | lookaheadRouting map =>
      rw [runChecked?, run]
      exact routeChecked?_eq map hc
        (fun m d hd hm => mirrors_routeLookaheadOnTables? hd.qubits_lt hd.clbits_lt hd.qubits_nodup hm)
        fun m d s hd hm hs => hd.fitsIn_routeLookahead hm hs
    | checkRouting map => rw [runChecked?]
    | basisTranslation basis =>
      cases basis with
      | none => rw [runChecked?, run]
      | some names =>
        rw [runChecked?, run]
        exact Outcome.ofChecked?_eq mirrors_translateChecked fun is his => hc.translateGates his
    | gateDirection target map =>
      rw [runChecked?, run]
      exact Outcome.ofChecked?_eq (mirrors_ofExcept _) fun is his => hc.directGates his
    | schedule policy target =>
      rw [runChecked?, run, hc.scheduleOnTables?_eq]
      rfl
    | reduceWide target basis settings =>
      rw [runChecked?, run]
      exact Outcome.ofChecked?_eq (mirrors_ofExcept _) fun is his => hc.reduceWide his
    | marker label => rw [runChecked?]

example : (Pass.schedule .asap none).runChecked? ((Circuit.empty "outside" 1 0).withInstructions [.x 1]) = none := rfl

/-- Passes that run one after the other, whether or not those before them failed, never come to a fault. The circuit
that they leave behind is well-formed, and its layouts are bijections inside it. -/
theorem wellFormed_sequence {name : String} {numQubits numClbits : Nat} {is : List (Instruction Float)}
    {layout finalLayout : Option Layout} {times : Option (List Float)}
    (h : Circuit.ofParts name numQubits numClbits is layout finalLayout times = .ok c) (ps : List Pass) :
    ∃ out, ps.foldlM (fun d p => (p.runChecked? d).map (·.circuit)) c = some out ∧
      out = ps.foldl (fun d p => (p.run d).circuit) c ∧ out.WellFormed ∧
      ∀ l, l ∈ out.layout ∨ l ∈ out.finalLayout → l.BijectiveBelow out.numQubits := by
  have hsequence (ps : List Pass) (c : Circuit Float) (hc : c.WellFormed) :
      ps.foldlM (fun d p => (p.runChecked? d).map (·.circuit)) c = some (ps.foldl (fun d p => (p.run d).circuit) c) ∧
        (ps.foldl (fun d p => (p.run d).circuit) c).WellFormed := by
    induction ps generalizing c with
    | nil => exact ⟨rfl, hc⟩
    | cons p ps ih =>
      rw [List.foldlM_cons, p.runChecked?_eq hc]
      exact ih (p.run c).circuit (p.wellFormed_run hc)
  obtain ⟨-, hc⟩ := Circuit.ofParts_eq_ok_iff.mp h
  obtain ⟨hrun, hout⟩ := hsequence ps c hc
  refine ⟨_, hrun, rfl, hout, fun l hl => Layout.bijectiveBelow_iff.mpr ?_⟩
  rcases hl with hl | hl
  · exact hout.layout_lt l hl
  · exact hout.finalLayout_lt l hl

/-- Placement that fails, lookahead, and translation into an empty basis, which fails as well. -/
theorem wellFormed_sequence_ghz :
    ((trivialLayout (some 2)).run (.ghz 3)).isFailure ∧
      ∃ out, [trivialLayout (some 2), lookaheadRouting (some (.linear 4)), basisTranslation (some []),
          Pass.schedule .alap none].foldlM (fun d p => (p.runChecked? d).map (·.circuit)) (.ghz 3) = some out ∧
        out.WellFormed ∧ ∀ l, l ∈ out.layout ∨ l ∈ out.finalLayout → l.BijectiveBelow out.numQubits := by
  have haccepted : Circuit.ofParts (Circuit.ghz 3 : Circuit Float).name 3 3 (Circuit.ghz 3 : Circuit Float).instructions
      none none none = .ok (Circuit.ghz 3) :=
    Circuit.ofParts_eq_ok_iff.mpr ⟨rfl, Circuit.wellFormed_ghz 3⟩
  obtain ⟨out, hrun, -, hout, hlayouts⟩ := wellFormed_sequence haccepted
    [trivialLayout (some 2), lookaheadRouting (some (.linear 4)), basisTranslation (some []), Pass.schedule .alap none]
  exact ⟨rfl, out, hrun, hout, hlayouts⟩

end Pass

end CircuitStages
