namespace CircuitStages

inductive StageKind where
  | init
  | layout
  | routing
  | translation
  | optimization
  | scheduling
deriving DecidableEq, Repr

namespace StageKind

/-- All kinds, in the order in which their stages run. -/
def all : List StageKind := [init, layout, routing, translation, optimization, scheduling]

def name : StageKind → String
  | init => "init"
  | layout => "layout"
  | routing => "routing"
  | translation => "translation"
  | optimization => "optimization"
  | scheduling => "scheduling"

def ofName? (s : String) : Option StageKind := all.find? (·.name == s)

/-- The method used where none is chosen. The init stage has none: without a choice it does what the other stages
need. -/
def usualMethod? : StageKind → Option String
  | init => none
  | routing => some "sabre"
  | translation => some "translator"
  | layout | optimization | scheduling => some "default"

end StageKind

end CircuitStages
