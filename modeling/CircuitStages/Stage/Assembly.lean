import CircuitStages.Stage.Builtin
import CircuitStages.Stage.Pipeline

namespace CircuitStages

/-- The optimization level at which stages are built. -/
def presetLevel : Nat := 2

namespace Config

def needsMapping (c : Config) : Bool := c.effectiveCouplingMap.isSome || c.initialLayout.isSome

/-- The stage for the method in effect for a kind, if there is one. -/
def stage? (c : Config) (r : Registry) (kind : StageKind) : Except AssembleError (Option Pipeline) :=
  match c.method? kind with
  | none => .ok none
  | some method => some <$> r.lookup kind method c presetLevel

/-- The staged pipeline for a valid configuration. The routing stage is built even where it is left out, so its method
has to exist. Init is the control-flow check, followed by the chosen method, or else by the reduction of wide operations
if circuits have to be placed. -/
def assemble (c : Config) (r : Registry) : Except AssembleError StagedPipeline := do
  c.validate.mapError .config
  let routing ← c.stage? r .routing
  let layout ← if c.needsMapping then c.stage? r .layout else .ok none
  let translation ← c.stage? r .translation
  let optimization ← c.stage? r .optimization
  let scheduling ← c.stage? r .scheduling
  let chosen ← c.stage? r .init
  let reduction : Pipeline := if c.needsMapping then .reductionFor c else []
  pure {
    init := some (.controlFlowValidation c.selections c.basisGates c.target ++ chosen.getD reduction)
    layout
    routing := if c.needsMapping then routing else none
    translation
    preOptimization := some (.preOptimizationFor c c.effectiveCouplingMap)
    optimization
    scheduling }

end Config

end CircuitStages
