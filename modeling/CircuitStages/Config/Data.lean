import CircuitStages.Circuit.Data
import CircuitStages.Config.Basic
import CircuitStages.Data.Json
import CircuitStages.Data.Yaml
import CircuitStages.Device.Data

namespace CircuitStages

namespace Config

/-- All fields. No others are allowed, so that misspelt ones are noticed. -/
def fieldNames : List String :=
  ["basis_gates", "coupling_map", "initial_layout", "layout_method", "routing_method", "translation_method",
    "optimization_method", "scheduling_method", "init_method", "approximation_degree", "unitary_synthesis_method",
    "unitary_synthesis_plugin_config", "hls_config", "target"]

def ofFields (fields : List (String × Node)) : Decoded Config := do
  let text (name : String) : Decoded (Option String) := optionalField fields name Node.asText
  let basisGates ← optionalField fields "basis_gates" BasisGates.ofNode
  let couplingMap ← optionalField fields "coupling_map" CouplingMap.ofNode
  let initialLayout ← optionalField fields "initial_layout" Layout.ofNode
  let layoutMethod ← text "layout_method"
  let routingMethod ← text "routing_method"
  let translationMethod ← text "translation_method"
  let optimizationMethod ← text "optimization_method"
  let schedulingMethod ← text "scheduling_method"
  let initMethod ← text "init_method"
  let approximationDegree ← optionalField fields "approximation_degree" Node.asFloat
  let synthesisMethod ← text "unitary_synthesis_method"
  let synthesisConfig ← defaultedField fields "unitary_synthesis_plugin_config" Node.toValue .null
  let highLevelConfig ← defaultedField fields "hls_config" Node.toValue .null
  let target ← optionalField fields "target" Target.ofNode
  pure { basisGates, couplingMap, initialLayout, layoutMethod, routingMethod, translationMethod, optimizationMethod,
         schedulingMethod, initMethod, approximationDegree, synthesisMethod, synthesisConfig, highLevelConfig, target }

def ofNode (n : Node) : Decoded Config := do
  let fields ← n.asRecord fieldNames
  if fields.all fun field => fieldNames.contains field.1 then ofFields fields else .error .malformed

/-- The configuration that a list of fields in their order holds; fields at the end may be left out. -/
def ofSequence (items : List Node) : Decoded Config :=
  if items.length ≤ fieldNames.length then ofFields (fieldNames.zip items) else .error .malformed

/-- A configuration that was read, unless it is invalid. -/
def accept : Decoded Config → Except ConfigError Config
  | .error e => .error (.unparsable e.reason?)
  | .ok c => c.validate.map fun _ => c

def ofJson (text : String) : Except ConfigError Config :=
  accept do
    match ← Json.read .exact text with
    | .sequence items => ofSequence items
    | n => ofNode n

def ofYaml (text : String) : Except ConfigError Config := accept (Yaml.read text >>= ofNode)

/-- The file that a path names: its last part, leaving out the parts that stay in place. -/
def fileName? (path : String) : Option String :=
  ((path.splitOn "/").filter fun part => part ≠ "" ∧ part ≠ ".").getLast?

/-- The end of a file name after the last dot, if there is something before that dot. -/
def extension? (fileName : String) : Option String :=
  let reversed := fileName.toList.reverse
  match reversed.dropWhile (· != '.') with
  | '.' :: _ :: _ => some (String.ofList (reversed.takeWhile (· != '.')).reverse)
  | _ => none

/-- The valid configuration in a file: JSON if the file name says so, and YAML otherwise. -/
def ofFile (path : String) (content : Except String String) : Except ConfigError Config :=
  match content with
  | .error reason => .error (.unreadable reason)
  | .ok text => if (fileName? path).bind extension? = some "json" then ofJson text else ofYaml text

def toValue (c : Config) : Value :=
  let text : Option String → Value := .ofOption .string
  .object [("approximation_degree", .ofOption .ofFloat c.approximationDegree),
    ("basis_gates", .ofOption BasisGates.toValue c.basisGates),
    ("coupling_map", .ofOption CouplingMap.toValue c.couplingMap), ("hls_config", c.highLevelConfig),
    ("init_method", text c.initMethod), ("initial_layout", .ofOption Layout.toValue c.initialLayout),
    ("layout_method", text c.layoutMethod), ("optimization_method", text c.optimizationMethod),
    ("routing_method", text c.routingMethod), ("scheduling_method", text c.schedulingMethod),
    ("target", .ofOption Target.toValue c.target), ("translation_method", text c.translationMethod),
    ("unitary_synthesis_method", text c.synthesisMethod), ("unitary_synthesis_plugin_config", c.synthesisConfig)]

end Config

end CircuitStages
