import CircuitStages.Pass.Description

namespace CircuitStages

/-- The places of a staged pipeline. -/
inductive StageSlot where
  | init
  | layout
  | routing
  | translation
  | preOptimization
  | optimization
  | scheduling
deriving DecidableEq, Repr

namespace StageSlot

/-- All places, in the order in which their stages run. -/
def all : List StageSlot := [init, layout, routing, translation, preOptimization, optimization, scheduling]

def name : StageSlot → String
  | init => "init"
  | layout => "layout"
  | routing => "routing"
  | translation => "translation"
  | preOptimization => "pre_optimization"
  | optimization => "optimization"
  | scheduling => "scheduling"

def ofName? (s : String) : Option StageSlot := all.find? (·.name == s)

end StageSlot

/-- A stage for each place. An absent one leaves the circuit alone, just as an empty one does. -/
structure StagedPipeline where
  init : Option Pipeline
  layout : Option Pipeline
  routing : Option Pipeline
  translation : Option Pipeline
  preOptimization : Option Pipeline
  optimization : Option Pipeline
  scheduling : Option Pipeline

namespace StagedPipeline

def stage? (p : StagedPipeline) : StageSlot → Option Pipeline
  | .init => p.init
  | .layout => p.layout
  | .routing => p.routing
  | .translation => p.translation
  | .preOptimization => p.preOptimization
  | .optimization => p.optimization
  | .scheduling => p.scheduling

/-- The present stages in the order in which they run. -/
def stages (p : StagedPipeline) : List (StageSlot × Pipeline) :=
  StageSlot.all.filterMap fun slot => (p.stage? slot).map fun stage => (slot, stage)

def stageNames (p : StagedPipeline) : List String := p.stages.map (·.1.name)

/-- The circuit after all stages, or the error of the first that fails. -/
def apply (p : StagedPipeline) (c : Circuit Float) : Except StageError (Circuit Float) :=
  p.stages.foldlM (fun c stage => stage.2.apply c) c

/-- What each stage makes of the circuit, up to the first that fails. -/
def traceStages : List (StageSlot × Pipeline) → Circuit Float → List (StageSlot × Except StageError (Circuit Float))
  | [], _ => []
  | (slot, stage) :: rest, c =>
    match stage.apply c with
    | .ok next => (slot, .ok next) :: traceStages rest next
    | .error e => [(slot, .error e)]

def trace (p : StagedPipeline) (c : Circuit Float) : List (StageSlot × Except StageError (Circuit Float)) :=
  traceStages p.stages c

/-- The text of every pass in a place, if its stage is present. -/
def describe? (p : StagedPipeline) (slot : StageSlot) : Option (List String) := (p.stage? slot).map (·.describe)

end StagedPipeline

end CircuitStages
