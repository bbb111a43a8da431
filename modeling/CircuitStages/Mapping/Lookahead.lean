import CircuitStages.Mapping.Dependencies
import CircuitStages.Mapping.Routing

namespace CircuitStages

variable {α : Type}

/-- A circuit to be routed on a device, with all neighbours and distances at hand. -/
structure RouteProblem (α : Type) where
  map : CouplingMap
  neighbors : Array (List Nat)
  distances : Array (Array (Option Nat))
  dependencies : Dependencies α
  numQubits : Nat

/-- How many gates behind the blocked ones count. -/
def lookaheadSize : Nat := 20

/-- The weight of the gates behind the blocked ones. -/
def lookaheadWeight : Float := 0.5

/-- What each swap adds to the weight of its qubits. -/
def decayRate : Float := 0.001

/-- The weights start anew after so many swaps. -/
def decayPeriod : Nat := 5

/-- The first entry with the least score. -/
def firstLeast? {β : Type} (scored : List (β × Float)) : Option β :=
  (scored.foldl (fun best e =>
    match best with
    | none => some e
    | some b => if e.2 < b.2 then some e else some b) none).map (·.1)

namespace RouteProblem

def ofInstructions (m : CouplingMap) (numQubits : Nat) (is : List (Instruction α)) : RouteProblem α :=
  ⟨m, m.neighborTable, m.distances, .ofInstructions is, numQubits⟩

def distance? (r : RouteProblem α) (a b : Nat) : Option Nat := (r.distances.getD a #[]).getD b none

/-- The mean distance of pairs of positions after a swap, for a gate of this name. -/
def meanDistance (r : RouteProblem α) (name : String) (swap : Nat × Nat) (pairs : List (Nat × Nat)) :
    Except CircuitError Float := do
  let total ← pairs.foldlM (fun total e =>
    let a := exchange swap.1 swap.2 e.1
    let b := exchange swap.1 swap.2 e.2
    match r.distance? a b with
    | some d => .ok (total + Float.ofNat d)
    | none => .error (.unroutable name a b)) 0.0
  pure (if pairs.isEmpty then 0.0 else total / Float.ofNat pairs.length)

/-- How well a swap serves the blocked pairs of positions and the pairs behind them; less is better. -/
def score (r : RouteProblem α) (decay : Array Float) (name : String) (blocked behind : List (Nat × Nat))
    (swap : Nat × Nat) : Except CircuitError Float := do
  let first := decay.getD swap.1 1.0
  let second := decay.getD swap.2 1.0
  let near ← r.meanDistance name swap blocked
  let far ← r.meanDistance name swap behind
  pure ((if first < second then second else first) * (near + lookaheadWeight * far))

/-- The swaps that move an operand of a blocked pair of positions along a link. -/
def candidates (r : RouteProblem α) (blocked : List (Nat × Nat)) : List (Nat × Nat) :=
  let positions := blocked.flatMap fun e => [e.1, e.2]
  ascending linkBefore (positions.flatMap fun p => (r.neighbors.getD p []).map fun q => (min p q, max p q))

/-- The positions of the blocked gates among those at the front. -/
def blockedPairs (r : RouteProblem α) (s : RouteState α) (front : List Nat) : List (Nat × Nat) :=
  (r.dependencies.pick front).filterMap (s.blocked? r.map)

/-- The best swap for a blocked front whose first gate is `first`. -/
def bestSwap (r : RouteProblem α) (s : RouteState α) (decay : Array Float) (front : List Nat)
    (first : Instruction α) : Except CircuitError (Nat × Nat) := do
  let blocked := r.blockedPairs s front
  let behind := (r.dependencies.lookahead lookaheadSize front).map fun e => (s.position e.1, s.position e.2)
  let scored ← (r.candidates blocked).mapM fun swap => do
    let value ← r.score decay first.name blocked behind swap
    pure (swap, value)
  match firstLeast? scored with
  | some swap => .ok swap
  | none =>
    let (a, b) := (s.blocked? r.map first).getD (0, 0)
    .error (.unroutable first.name a b)

/-- The waiting instructions at the front that can be emitted. -/
def due (r : RouteProblem α) (s : RouteState α) (front : List Nat) : List Nat :=
  front.filter fun index => (r.dependencies.instructions[index]?).any fun i => (s.blocked? r.map i).isNone

/-- Emits all that is due, round by round, and returns what still waits. Each round emits something, so as many rounds
as there are instructions suffice. -/
def release (r : RouteProblem α) : Nat → RouteState α → List Nat → RouteState α × List Nat
  | 0, s, waiting => (s, waiting)
  | rounds + 1, s, waiting =>
    let due := r.due s (r.dependencies.front waiting)
    if due.isEmpty then (s, waiting)
    else r.release rounds ((r.dependencies.pick due).foldl .emit s) (waiting.filter fun i => !due.contains i)

def decayAfter (r : RouteProblem α) (s : RouteState α) (decay : Array Float) (a b : Nat) : Array Float :=
  if s.swapCount % decayPeriod = 0 then Array.replicate r.numQubits 1.0
  else (decay.modify a (· + decayRate)).modify b (· + decayRate)

/-- Inserts swaps until something at the blocked front is due, at most `patience` of them by score; then the first
blocked gate is led along a shortest path. -/
def unblock (r : RouteProblem α) (front : List Nat) (first : Instruction α) :
    Nat → Array Float → RouteState α → Except CircuitError (RouteState α)
  | 0, _, s =>
    match s.blocked? r.map first with
    | some (a, b) => s.walk r.map first.name a b
    | none => .ok s
  | patience + 1, decay, s => do
    let (a, b) ← r.bestSwap s decay front first
    let s := s.swap a b
    if (r.due s front).isEmpty then r.unblock front first patience (r.decayAfter s decay a b) s else pure s

/-- How many swaps are chosen by score before a gate is led along a path. -/
def patience (r : RouteProblem α) : Nat := 10 * max r.numQubits 1

/-- Releases and unblocks in turn until nothing is at the front. Every turn but the first releases something, so one
turn more than there are instructions suffices. -/
def run (r : RouteProblem α) : Nat → RouteState α → List Nat → Except CircuitError (RouteState α)
  | 0, s, _ => .ok s
  | turns + 1, s, waiting =>
    let (s, waiting) := r.release waiting.length s waiting
    let front := r.dependencies.front waiting
    match (r.dependencies.pick front).head? with
    | none => .ok s
    | some first => do
      let s ← r.unblock front first r.patience (Array.replicate r.numQubits 1.0) s
      r.run turns s waiting

end RouteProblem

def routeLookahead (m : CouplingMap) (numQubits : Nat) (is : List (Instruction α)) :
    Except CircuitError (RouteState α) :=
  (RouteProblem.ofInstructions m numQubits is).run (is.length + 1) (.start numQubits) (List.range is.length)

end CircuitStages
