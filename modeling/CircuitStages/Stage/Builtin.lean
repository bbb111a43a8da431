import CircuitStages.Stage.Essential
import CircuitStages.Stage.Registry

namespace CircuitStages

/-- Translates to the operations of the target, or to the basis gates where there is no target. -/
def Pass.translator (c : Config) : Pass :=
  match c.target, c.basisGates with
  | some t, _ => .translateTo t.operationNames
  | none, some b => .translateTo b.gates
  | none, none => .basisTranslation none

namespace StageBuilder

/-- A stage of one pass that depends on the configuration alone. -/
def ofPass (pass : Config → Pass) : StageBuilder := fun c _ => .ok [pass c]

def reduction : StageBuilder := fun c _ => .ok (.reductionFor c)

/-- The placement that the user asks for, or one on a well linked region; a target without links links all its
qubits. -/
def denseLayout : StageBuilder := fun c _ =>
  match c.initialLayout, c.effectiveCouplingMap.or (c.target.map fun t => .full t.numQubits) with
  | some layout, _ => .ok [.setLayout layout c.deviceSize?]
  | none, some map => .ok [.denseLayout map]
  | none, none => .error (.missingRequirement .layout "default" "a coupling map or target")

/-- The placement that the user asks for, or every qubit at its own number. -/
def trivialLayout : StageBuilder := ofPass fun c =>
  match c.initialLayout with
  | some layout => .setLayout layout c.deviceSize?
  | none => .trivialLayout c.deviceSize?

/-- Nothing at level 0, cancellation at level 1, and from level 2 on cancellation and merging up to a fixed point, with
what this brings in translated again. -/
def optimization : StageBuilder := fun c level =>
  .ok <| match level with
    | 0 => []
    | 1 => [.cancelInverses]
    | _ + 2 =>
      .optimizationLoop [.mergeRotations, .cancelInverses] 20 ::
        (if c.target.isSome || c.basisGates.isSome then [.translator c] else [])

def nothing : StageBuilder := fun _ _ => .ok []

end StageBuilder

def builtinStages : List (StageKind × String × StageBuilder) := [
  (.init, "default", .reduction),
  (.layout, "default", .denseLayout),
  (.layout, "trivial", .trivialLayout),
  (.routing, "sabre", .ofPass fun c => .lookaheadRouting c.effectiveCouplingMap),
  (.routing, "basic", .ofPass fun c => .basicRouting c.effectiveCouplingMap),
  (.routing, "none", .ofPass fun c => .checkRouting c.effectiveCouplingMap),
  (.translation, "translator", .ofPass .translator),
  (.optimization, "default", .optimization),
  (.scheduling, "default", .nothing),
  (.scheduling, "asap", .ofPass fun c => .schedule .asap c.target),
  (.scheduling, "alap", .ofPass fun c => .schedule .alap c.target)]

def Registry.builtin : Registry := builtinStages.foldl (fun r s => r.insert s.1 s.2.1 s.2.2) .empty

end CircuitStages
