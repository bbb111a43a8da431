import CircuitStages.Circuit.Error
import CircuitStages.Stage.Kind
import CircuitStages.Text.Decimal

namespace CircuitStages

/-- The configuration is invalid or contradicts itself. -/
inductive ConfigError where
  | invalidApproximationDegree (degree : Float)
  | emptyMethodName (kind : StageKind)
  /-- The initial layout places a qubit outside the device. -/
  | layoutOutOfRange (qubit position size : Nat)
  /-- The coupling map links a qubit to itself. -/
  | selfLoop (qubit : Nat)
  | deviceTooLarge (requested limit : Nat)
  /-- The target has an operation on a qubit that the device lacks. -/
  | targetQubitOutOfRange (operation : String) (qubit size : Nat)
  /-- A stage needs something that the configuration does not give. -/
  | missingRequirement (kind : StageKind) (method requirement : String)
  /-- The circuit has control flow that the chosen methods or the device cannot handle. -/
  | controlFlowUnsupported (reason : String)
  /-- The configuration file cannot be read. -/
  | unreadable (reason : String)
  /-- The text is no configuration; the reason is given where the data contradicts itself or lacks a field. -/
  | unparsable (reason : Option String)

def ConfigError.message : ConfigError → String
  | .invalidApproximationDegree degree =>
    "Approximation degree must be within [0, 1], got " ++ DecimalStyle.plain.write degree
  | .emptyMethodName kind => "Empty method name for the " ++ kind.name ++ " stage"
  | .layoutOutOfRange qubit position size =>
    s!"Initial layout maps q{qubit} to physical qubit {position}, but the device has {size} qubits"
  | .selfLoop qubit => s!"Coupling map has a self-loop on qubit {qubit}"
  | .deviceTooLarge requested limit => s!"Device with {requested} qubits exceeds the limit of {limit}"
  | .targetQubitOutOfRange operation qubit size =>
    s!"Target operation '{operation}' uses qubit {qubit} on a device with {size} qubits"
  | .missingRequirement kind method requirement => kind.name ++ s!" method '{method}' requires {requirement}"
  | .controlFlowUnsupported reason => reason
  | .unreadable reason => "Failed to read configuration: " ++ reason
  | .unparsable reason => "Failed to parse configuration: " ++ reason.getD "not in the expected form"

/-- No stage of this kind is registered under the method name. -/
structure ResolutionError where
  kind : StageKind
  method : String
  /-- The registered methods of the kind, in ascending order. -/
  available : List String
deriving DecidableEq, Repr

def ResolutionError.message (e : ResolutionError) : String :=
  let available := if e.available.isEmpty then "none" else ", ".intercalate e.available
  "No " ++ e.kind.name ++ " stage registered for method '" ++ e.method ++ "' (available: " ++ available ++ ")"

inductive AssembleError where
  | config (e : ConfigError)
  | resolution (e : ResolutionError)

inductive StageError where
  | circuit (e : CircuitError)
  | config (e : ConfigError)

def StageError.message : StageError → String
  | .circuit e => e.message
  | .config e => e.message

end CircuitStages
