import CircuitStages.Data.Node
import CircuitStages.Proofs.Tables.Pass
import CircuitStages.Proofs.Tables.Placement

namespace CircuitStages

/-- An edit of a circuit in place. An error leaves the circuit as it stands, a fault leaves nothing. -/
abbrev Edit (β : Type) := ExceptT StageError (StateT (Circuit Float) Option) β

/-- How a run ends, apart from the circuit. -/
def Outcome.ending (o : Outcome) : Except StageError Unit :=
  match o.error with
  | none => .ok ()
  | some e => .error e

theorem Outcome.ending_eq_error_iff {o : Outcome} {e : StageError} : o.ending = .error e ↔ o.error = some e := by
  obtain ⟨d, error⟩ := o
  cases error <;> simp [ending]

theorem Circuit.withInstructions_withInstructions {α : Type} (c : Circuit α) (is js : List (Instruction α)) :
    (c.withInstructions is).withInstructions js = c.withInstructions js := rfl

namespace Edit

section Steps

variable {β γ : Type} {c d : Circuit Float}

/-- How an edit of a circuit ends, and what it has made of the circuit. -/
def apply (x : Edit β) (c : Circuit Float) : Option (Except StageError β × Circuit Float) := x.run.run c

/-- A value that has to be there. -/
def access (value : Option β) : Edit β := liftM value

/-- The result of a computation that leaves the circuit alone. -/
def compute (result : Checked CircuitError β) : Edit β := do
  match ← access result.run with
  | .ok b => pure b
  | .error e => throw (.circuit e)

/-- An operation of the circuit, which it can refuse. -/
def update (f : Circuit Float → Except CircuitError (Circuit Float)) : Edit Unit := do
  let c ← get
  set (← compute (.ofExcept (f c)))

/-- Takes the instructions out of the circuit, which loses its schedule with them. -/
def takeInstructions : Edit (List (Instruction Float)) := do
  let c ← get
  set (c.withInstructions [])
  pure c.instructions

@[simp]
theorem apply_pure (b : β) (c : Circuit Float) : (pure b : Edit β).apply c = some (.ok b, c) := rfl

@[simp]
theorem apply_throw (e : StageError) (c : Circuit Float) : (throw e : Edit β).apply c = some (.error e, c) := rfl

/-- What follows runs on what has been made of the circuit, unless there is an error or a fault. -/
@[simp]
theorem apply_bind (x : Edit β) (f : β → Edit γ) (c : Circuit Float) :
    (x >>= f).apply c = match x.apply c with
      | some (.ok b, d) => (f b).apply d
      | some (.error e, d) => some (.error e, d)
      | none => none := by
  have hrun : (x >>= f).apply c = x.apply c >>= fun out => (ExceptT.bindCont f out.1).run out.2 := rfl
  rw [hrun]
  cases x.apply c with
  | none => rfl
  | some out => obtain ⟨ending, d⟩ := out; cases ending <;> rfl

@[simp]
theorem apply_get (c : Circuit Float) : (get : Edit (Circuit Float)).apply c = some (.ok c, c) := rfl

@[simp]
theorem apply_set (c d : Circuit Float) : (set d : Edit Unit).apply c = some (.ok (), d) := rfl

@[simp]
theorem apply_modify (f : Circuit Float → Circuit Float) (c : Circuit Float) :
    (modify f : Edit Unit).apply c = some (.ok (), f c) := rfl

@[simp]
theorem apply_access (value : Option β) (c : Circuit Float) :
    (access value).apply c = value.map fun b => (.ok b, c) := by
  cases value <;> rfl

@[simp]
theorem apply_takeInstructions (c : Circuit Float) :
    takeInstructions.apply c = some (.ok c.instructions, c.withInstructions []) := rfl

/-- A computation without a fault. -/
theorem apply_compute {x : Checked CircuitError β} {y : Except CircuitError β} (h : Mirrors Eq x y) :
    (compute x).apply c = some (y.mapError .circuit, c) := by
  rw [compute, apply_bind, mirrors_eq_iff.mp h]
  cases y <;> rfl

theorem apply_update {f : Circuit Float → Except CircuitError (Circuit Float)} (h : f c = .ok d) :
    (update f).apply c = some (.ok (), d) := by
  rw [update, apply_bind]
  simp only [apply_get, apply_bind, apply_compute (mirrors_ofExcept _), h, Except.mapError, apply_set]

def expandQubits (n : Nat) : Edit Unit := update (·.expandQubits n)

theorem apply_expandQubits {n : Nat} (h : c.numQubits ≤ n) :
    (expandQubits n).apply c = some (.ok (), { c with numQubits := n }) := apply_update (c.expandQubits_eq_ok h)

/-- Whether an edit ends without a fault and like a run, with the same error if any and the same circuit. -/
def EndsAs (x : Edit Unit) (c : Circuit Float) (o : Outcome) : Prop := x.apply c = some (o.ending, o.circuit)

variable {x y : Edit Unit} {o : Outcome}

theorem EndsAs.bind_of_failure (h : x.EndsAs c o) (ho : o.isFailure = true) : (x >>= fun _ => y).EndsAs c o := by
  obtain ⟨d, e⟩ := o
  cases e with
  | none => cases ho
  | some e => rw [EndsAs, apply_bind, h]; rfl

theorem EndsAs.apply_bind_of_success (h : x.EndsAs c o) (ho : o.isFailure = false) :
    (x >>= fun _ => y).apply c = y.apply o.circuit := by
  obtain ⟨d, e⟩ := o
  cases e with
  | none => rw [apply_bind, h]; rfl
  | some e => cases ho

end Steps

section Instructions

variable {c : Circuit Float} {is : List (Instruction Float)}

/-- Puts instructions into the circuit, which checks all of them. -/
def setInstructions (is : List (Instruction Float)) : Edit Unit := update (·.setInstructions is)

/-- Takes the instructions out, and puts in what is made of them on so many qubits. -/
def rewrite (f : Nat → List (Instruction Float) → Checked CircuitError (List (Instruction Float))) : Edit Unit := do
  let is ← takeInstructions
  let c ← get
  setInstructions (← compute (f c.numQubits is))

/-- Instructions that fit are not refused in the place of those taken out. -/
theorem apply_setInstructions (h : ∀ i ∈ is, c.Fits i) :
    (setInstructions is).apply (c.withInstructions []) = some (.ok (), c.withInstructions is) := by
  have hset : (c.withInstructions []).setInstructions is = .ok (c.withInstructions is) :=
    Circuit.setInstructions_eq_ok_iff.mpr ⟨fun i hi => (h i hi).congr rfl rfl, rfl⟩
  exact apply_update hset

theorem endsAs_rewrite {f : Nat → List (Instruction Float) → Checked CircuitError (List (Instruction Float))}
    {y : Except CircuitError (List (Instruction Float))} (h : Mirrors Eq (f c.numQubits c.instructions) y)
    (hwell : ∀ is, y = .ok is → (c.withInstructions is).WellFormed) : (rewrite f).EndsAs c (.ofInstructions c y) := by
  have hrun : (compute (f (c.withInstructions []).numQubits c.instructions)).apply (c.withInstructions []) =
      some (y.mapError .circuit, c.withInstructions []) := apply_compute h
  rw [EndsAs, rewrite]
  simp only [apply_bind, apply_takeInstructions, apply_get, hrun]
  cases y with
  | error e => rfl
  | ok is => exact apply_setInstructions fun i hi => ((hwell is rfl).fits hi).congr rfl rfl

theorem endsAs_peephole {join : Instruction Float → Instruction Float → Joined Float} (hc : c.WellFormed)
    (hjoin : KeepsOperands join) : (rewrite fun n is => liftM (peepholeOnTables? join n is)).EndsAs c
      (.success (c.withInstructions (peephole join c.instructions))) := by
  refine endsAs_rewrite (y := .ok (peephole join c.instructions)) ?_ fun is his => ?_
  · rw [peepholeOnTables?_eq hc.qubits_lt hc.qubits_nodup hjoin]
    exact .pure rfl
  · cases his
    exact hc.peephole hjoin

end Instructions

section Routing

variable {c : Circuit Float}
  {router : CouplingMap → Nat → List (Instruction Float) → Except CircuitError (RouteState Float)}
  {checked : CouplingMap → Circuit Float → Checked CircuitError (RouteState Float)}

/-- Gives the circuit the qubits of the device, if it has more of them. -/
def widen (m : CouplingMap) : Edit Unit := do
  let c ← get
  if c.numQubits < m.numQubits then expandQubits m.numQubits

/-- Puts in the instructions of a finished run, then records the final placement. -/
def finishRoute (s : RouteState Float) : Edit Unit := do
  let c ← get
  let final := .ofPairs (c.initialLayout.pairs.map fun e => (e.1, s.position e.2))
  setInstructions (s.steps.reverse.map (·.toInstruction))
  modify fun d => { d with finalLayout := some final }

/-- Routes the instructions on the widened circuit, from which they are taken out; without a coupling map all qubits are
linked. -/
def route (checked : CouplingMap → Circuit Float → Checked CircuitError (RouteState Float)) :
    Option CouplingMap → Edit Unit
  | none => modify Circuit.keepPlacement
  | some m => do
    widen m
    let is ← takeInstructions
    let c ← get
    finishRoute (← compute (checked m (c.withInstructions is)))

theorem apply_widen (m : CouplingMap) (c : Circuit Float) : (widen m).apply c = some (.ok (), c.widen m) := by
  rw [widen, Circuit.widen, apply_bind, apply_get]
  dsimp only
  split
  next h =>
    rw [Nat.max_eq_right (Nat.le_of_lt h)]
    exact apply_expandQubits (Nat.le_of_lt h)
  next h =>
    rw [Nat.max_eq_left (Nat.le_of_not_lt h)]
    rfl

theorem apply_finishRoute {s : RouteState Float} (hc : c.WellFormed) (hs : s.FitsIn c) :
    (finishRoute s).apply (c.withInstructions []) = some (.ok (), c.finishRoute s) := by
  have hfits : ∀ i ∈ s.steps.reverse.map (·.toInstruction), c.Fits i := fun i hi =>
    ((hc.finishRoute hs).fits hi).congr rfl rfl
  rw [finishRoute]
  simp only [apply_bind, apply_get, apply_setInstructions hfits, apply_modify]
  rfl

/-- An edit by a router ends like a run of the router on the widened circuit. -/
theorem endsAs_route (map : Option CouplingMap) (hc : c.WellFormed)
    (hrouter : ∀ m d, d.WellFormed → m.numQubits ≤ d.numQubits →
      Mirrors Eq (checked m d) (router m d.numQubits d.instructions))
    (hfits : ∀ m d s, d.WellFormed → m.numQubits ≤ d.numQubits → router m d.numQubits d.instructions = .ok s →
      s.FitsIn d) : (route checked map).EndsAs c (routeOn router map c) := by
  cases map with
  | none => rfl
  | some m =>
    have hwide := hc.widen m
    have hsize : m.numQubits ≤ (c.widen m).numQubits := Nat.le_max_right _ _
    -- The router sees the instructions that have been taken out, without their schedule.
    have hsame : ((c.widen m).withInstructions (c.widen m).instructions).WellFormed :=
      hwide.withInstructions fun _ hi => hwide.fits hi
    have hrun : (compute (checked m ((c.widen m).withInstructions (c.widen m).instructions))).apply
        ((c.widen m).withInstructions []) =
          some ((router m (c.widen m).numQubits (c.widen m).instructions).mapError .circuit,
            (c.widen m).withInstructions []) := apply_compute (hrouter m _ hsame hsize)
    rw [EndsAs, route, routeOn]
    simp only [apply_bind, apply_get, apply_widen, apply_takeInstructions, Circuit.withInstructions_withInstructions,
      hrun]
    cases hresult : router m (c.widen m).numQubits (c.widen m).instructions with
    | error e => rfl
    | ok s => exact apply_finishRoute hwide (hfits m _ s hwide hsize hresult)

end Routing

section Placement

variable {c : Circuit Float} {l : Layout} {numPhysical : Nat}

/-- Refuses circuits with more qubits than a device has. -/
def checkSize (numPhysical : Nat) : Edit Unit := do
  let c ← get
  if numPhysical < c.numQubits then throw (.circuit (.layoutMismatch (.deviceTooSmall c.numQubits numPhysical)))

/-- Moves the instructions to their positions among those of a device. -/
def moveTo (layout : Layout) (device : Nat) : Edit Unit := do
  let is ← takeInstructions
  let placed ← compute (.ofExcept (is.mapM (·.placeInTurn layout)))
  expandQubits device
  setInstructions placed
  modify fun d => { d with layout := some layout }

/-- Places the circuit by a layout, which is completed before the instructions are taken out. -/
def place (l : Layout) (numPhysical : Nat) : Edit Unit := do
  let c ← get
  let limit ← access l.limit?
  checkSize numPhysical
  let device := max (max numPhysical c.numQubits) limit
  let layout ← compute (.ofExcept (l.completeInTurn c.numQubits device))
  moveTo layout device

theorem apply_checkSize_of_lt (h : numPhysical < c.numQubits) : (checkSize numPhysical).apply c =
    some (.error (.circuit (.layoutMismatch (.deviceTooSmall c.numQubits numPhysical))), c) := by
  rw [checkSize, apply_bind, apply_get]
  dsimp only
  rw [if_pos h, apply_throw]

theorem apply_checkSize_of_le (h : c.numQubits ≤ numPhysical) :
    (checkSize numPhysical).apply c = some (.ok (), c) := by
  rw [checkSize, apply_bind, apply_get]
  dsimp only
  rw [if_neg (Nat.not_lt.mpr h), apply_pure]

/-- Instructions that fit on the device are not refused. -/
theorem apply_moveTo {layout : Layout} {device : Nat} {placed : List (Instruction Float)} (hle : c.numQubits ≤ device)
    (hplaced : c.instructions.mapM (·.placeInTurn layout) = .ok placed)
    (hfits : ∀ i ∈ placed, Circuit.Fits { c with numQubits := device } i) : (moveTo layout device).apply c =
      some (.ok (), { c.withInstructions placed with numQubits := device, layout := some layout }) := by
  let wide : Circuit Float := { c with numQubits := device }
  have hexpand : (expandQubits device).apply (c.withInstructions []) = some (.ok (), wide.withInstructions []) :=
    apply_expandQubits hle
  have hset : (setInstructions placed).apply (wide.withInstructions []) = some (.ok (), wide.withInstructions placed) :=
    apply_setInstructions hfits
  rw [moveTo]
  simp only [apply_bind, apply_takeInstructions, apply_compute (mirrors_ofExcept _), hplaced, Except.mapError]
  rw [hexpand]
  simp only
  rw [hset]
  rfl

/-- Placement comes to a fault if its layout names the last number as a position, and ends like a run otherwise. -/
theorem place_cases (hc : c.WellFormed) (l : Layout) (numPhysical : Nat) :
    ((place l numPhysical).apply c = none ∧ ∃ e ∈ l.pairs, Node.maxIndex ≤ e.2) ∨
      (place l numPhysical).EndsAs c (.ofCircuit c (c.place l numPhysical)) := by
  cases hlimit : l.limit? with
  | none =>
    refine .inl ⟨?_, Layout.exists_of_limit?_eq_none hlimit⟩
    rw [place]
    simp only [apply_bind, apply_get, apply_access, hlimit, Option.map_none]
  | some limit =>
    right
    have hdevice := Layout.placedSize_eq_of_limit? hlimit c.numQubits numPhysical
    rcases Nat.lt_or_ge numPhysical c.numQubits with hsize | hsize
    · rw [EndsAs, place, Circuit.place, if_pos hsize]
      simp only [apply_bind, apply_get, apply_access, hlimit, Option.map_some, apply_checkSize_of_lt hsize]
      rfl
    · obtain ⟨out, hplace⟩ : ∃ out, c.place l numPhysical = .ok out := ⟨_, Circuit.place_eq_ok_iff.mpr ⟨hsize, rfl⟩⟩
      have hout := hc.place hplace
      rw [hplace]
      obtain ⟨-, rfl⟩ := Circuit.place_eq_ok_iff.mp hplace
      have hle : c.numQubits ≤ placedSize l c.numQubits numPhysical :=
        (Nat.le_max_right _ _).trans (Nat.le_max_left _ _)
      have hmove := apply_moveTo hle (mapM_eq_ok_map fun i hi => hc.placeInTurn_eq l hi)
        fun i hi => (hout.fits hi).congr rfl rfl
      rw [EndsAs, place]
      simp only [apply_bind, apply_get, apply_access, hlimit, Option.map_some, apply_checkSize_of_le hsize, ← hdevice,
        apply_compute (mirrors_ofExcept _), l.completeInTurn_eq hle, Except.mapError, hmove]
      rfl

end Placement

section Loop

variable {c : Circuit Float}

/-- Repeats an edit on a circuit of the given size, as long as rounds make it smaller. -/
def repeatShrinking (step : Edit Unit) : Nat → Nat × Nat → Edit Unit
  | 0, _ => pure ()
  | rounds + 1, size => do
    step
    let c ← get
    let reached ← access c.sizeOnTable?
    if size.1 ≤ reached.1 && size.2 ≤ reached.2 then pure () else repeatShrinking step rounds reached

/-- A loop over an edit ends like the loop over what the edit ends like. -/
theorem endsAs_repeatShrinking {P : Circuit Float → Prop} {step : Edit Unit} {plain : Circuit Float → Outcome}
    (hP : ∀ c, P c → c.WellFormed) (hstep : ∀ c, P c → step.EndsAs c (plain c) ∧ P (plain c).circuit) (rounds : Nat)
    (hc : P c) : (repeatShrinking step rounds (c.depth, c.numOps)).EndsAs c
      (CircuitStages.repeatShrinking plain rounds c) := by
  induction rounds generalizing c with
  | zero => rfl
  | succ rounds ih =>
    obtain ⟨hnext, hkept⟩ := hstep c hc
    have hsize : (plain c).circuit.sizeOnTable? = some ((plain c).circuit.depth, (plain c).circuit.numOps) := by
      rw [Circuit.sizeOnTable?, (hP _ hkept).depthOnTable?_eq]
      rfl
    rw [repeatShrinking, CircuitStages.repeatShrinking]
    cases hfail : (plain c).isFailure with
    | true => exact hnext.bind_of_failure hfail
    | false =>
      rw [EndsAs, hnext.apply_bind_of_success hfail]
      simp only [apply_bind, apply_get, apply_access, hsize, Option.map_some, Bool.false_or]
      split
      · rw [Outcome.eq_success_of_not_isFailure hfail]
        rfl
      · exact ih hkept

end Loop

end Edit

end CircuitStages
