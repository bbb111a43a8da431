import CircuitStages.Circuit.Layout
import CircuitStages.Config.Error
import CircuitStages.Data.Node
import CircuitStages.Device.Target
import CircuitStages.Rewrite.Native

namespace CircuitStages

/-- The first and last code point of each run of white space characters. -/
def blankRanges : List (Nat × Nat) :=
  [(0x9, 0xd), (0x20, 0x20), (0x85, 0x85), (0xa0, 0xa0), (0x1680, 0x1680), (0x2000, 0x200a), (0x2028, 0x2029),
    (0x202f, 0x202f), (0x205f, 0x205f), (0x3000, 0x3000)]

def isBlankChar (c : Char) : Bool := blankRanges.any fun r => r.1 ≤ c.toNat && c.toNat ≤ r.2

def isBlank (s : String) : Bool := s.toList.all isBlankChar

/-- What is known of the device, and the method chosen for each kind of stage; everything may be left open. A target
describes the device completely, so it takes precedence over the coupling map and the basis gates. -/
structure Config where
  basisGates : Option BasisGates := none
  couplingMap : Option CouplingMap := none
  /-- The placement that the user asks for. -/
  initialLayout : Option Layout := none
  layoutMethod : Option String := none
  routingMethod : Option String := none
  translationMethod : Option String := none
  optimizationMethod : Option String := none
  schedulingMethod : Option String := none
  initMethod : Option String := none
  /-- How exactly gates are to be synthesized, from 0 to 1. -/
  approximationDegree : Option Float := none
  synthesisMethod : Option String := none
  synthesisConfig : Value := .null
  highLevelConfig : Value := .null
  target : Option (Target Float) := none

namespace Config

/-- The method that the configuration names for a kind of stage. -/
def chosenMethod? (c : Config) : StageKind → Option String
  | .init => c.initMethod
  | .layout => c.layoutMethod
  | .routing => c.routingMethod
  | .translation => c.translationMethod
  | .optimization => c.optimizationMethod
  | .scheduling => c.schedulingMethod

/-- The method in effect for a kind of stage. -/
def method? (c : Config) (kind : StageKind) : Option String := (c.chosenMethod? kind).or kind.usualMethod?

/-- All methods in effect, in the order in which the stages run. -/
def selections (c : Config) : List (StageKind × String) :=
  StageKind.all.filterMap fun kind => (c.method? kind).map fun method => (kind, method)

def effectiveSynthesisMethod (c : Config) : String := c.synthesisMethod.getD "default"

/-- The links that routing has to respect. A target without operations on pairs has all of them. -/
def effectiveCouplingMap (c : Config) : Option CouplingMap :=
  match c.target with
  | some t => t.couplingMap?
  | none => c.couplingMap

def deviceSize? (c : Config) : Option Nat :=
  match c.target with
  | some t => some t.numQubits
  | none => c.couplingMap.map (·.numQubits)

/-- Whether a number can be an approximation degree. -/
def isDegree (x : Float) : Bool := x.isFinite && 0.0 ≤ x && x ≤ 1.0

def degreeFault? (c : Config) : Option ConfigError :=
  (c.approximationDegree.filter (!isDegree ·)).map .invalidApproximationDegree

def methodFault? (c : Config) : Option ConfigError :=
  let kinds : List StageKind := [.layout, .routing, .translation, .optimization, .scheduling, .init]
  (kinds.find? fun kind => (c.chosenMethod? kind).any isBlank).map .emptyMethodName

def linkFault? (c : Config) : Option ConfigError := (c.couplingMap.bind (·.selfLoops.head?)).map .selfLoop

def layoutFault? (c : Config) : Option ConfigError := do
  let layout ← c.initialLayout
  let size ← c.deviceSize?
  let e ← layout.pairs.find? (size ≤ ·.2)
  some (.layoutOutOfRange e.1 e.2 size)

def fault? (c : Config) : Option ConfigError :=
  c.degreeFault? <|> c.methodFault? <|> c.linkFault? <|> c.layoutFault?

def validate (c : Config) : Except ConfigError Unit :=
  match c.fault? with
  | some e => .error e
  | none => .ok ()

def synthesisSettings (c : Config) : SynthesisSettings :=
  ⟨c.approximationDegree, c.effectiveSynthesisMethod, c.synthesisConfig, c.highLevelConfig⟩

end Config

end CircuitStages
