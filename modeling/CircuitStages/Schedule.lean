import CircuitStages.Circuit.Basic
import CircuitStages.Device.Target

namespace CircuitStages

variable {α : Type} [Duration α]

inductive SchedulingPolicy where
  /-- As soon as their operands are free. -/
  | asap
  /-- As late as the end of the circuit allows. -/
  | alap
deriving DecidableEq, Repr

/-- How long an instruction takes: a barrier no time, a delay its own length, all else what the target says or one
unit. -/
def instructionDuration (target : Option (Target α)) (i : Instruction α) : α :=
  if i.isBarrier then 0
  else if i.isDelay then i.params.head?.getD 0
  else (target.bind (·.duration? i.name i.qubits)).getD 1

/-- The last of some points in time, not before the start. -/
def latest (times : List α) : α := times.foldl Duration.later 0

/-- The earliest start and end of each instruction when qubit `q` is free from `qubitFree q` and classical bit `b` from
`clbitFree b` on. -/
def earliestSlots (duration : Instruction α → α) (qubitFree clbitFree : Nat → α) :
    List (Instruction α) → List (α × α)
  | [] => []
  | i :: rest =>
    let start := latest (i.qubits.map qubitFree ++ i.clbits.map clbitFree)
    let stop := start + duration i
    (start, stop) :: earliestSlots duration (fun q => if i.qubits.contains q then stop else qubitFree q)
      (fun b => if i.clbits.contains b then stop else clbitFree b) rest

/-- The earliest start and end of each instruction when everything is free from the start. -/
def slots (duration : Instruction α → α) (is : List (Instruction α)) : List (α × α) :=
  earliestSlots duration (fun _ => 0) (fun _ => 0) is

/-- The start times of the instructions. The latest start leaves as much time to the end of the circuit as the earliest
schedule of the reversed circuit takes up to the end of the instruction. -/
def scheduledStarts (policy : SchedulingPolicy) (duration : Instruction α → α) (is : List (Instruction α)) : List α :=
  match policy with
  | .asap => (slots duration is).map (·.1)
  | .alap =>
    let ends := ((slots duration is.reverse).map (·.2)).reverse
    let makespan := latest ends
    ends.map (makespan - ·)

/-- The circuit with a start time for every instruction. -/
def Circuit.schedule (c : Circuit α) (policy : SchedulingPolicy) (target : Option (Target α)) : Circuit α :=
  { c with startTimes := some (scheduledStarts policy (instructionDuration target) c.instructions) }

end CircuitStages
