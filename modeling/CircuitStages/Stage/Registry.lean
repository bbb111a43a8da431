import CircuitStages.Config.Basic
import CircuitStages.Pass.Basic
import CircuitStages.Text.Description

namespace CircuitStages

/-- Builds a stage for a configuration and an optimization level. -/
abbrev StageBuilder := Config → Nat → Except ConfigError Pipeline

/-- A stage that brings its own method name along. -/
structure StagePlugin where
  name : String
  build : StageBuilder

/-- Builders by kind and method, at most one for each pair. -/
structure Registry where
  entries : List ((StageKind × String) × StageBuilder)
  distinct : (entries.map (·.1)).Nodup

namespace Registry

def empty : Registry := ⟨[], List.nodup_nil⟩

def builder? (r : Registry) (kind : StageKind) (method : String) : Option StageBuilder :=
  r.entries.lookup (kind, method)

def contains (r : Registry) (kind : StageKind) (method : String) : Bool := (r.builder? kind method).isSome

/-- The entries that stand under another kind or method. -/
def others (r : Registry) (kind : StageKind) (method : String) : List ((StageKind × String) × StageBuilder) :=
  r.entries.filter (·.1 != (kind, method))

/-- The registry with this builder in place of any other one under the same kind and method. -/
def insert (r : Registry) (kind : StageKind) (method : String) (build : StageBuilder) : Registry where
  entries := ((kind, method), build) :: r.others kind method
  distinct := by
    refine List.nodup_cons.2 ⟨fun h => ?_, r.distinct.sublist (List.filter_sublist.map _)⟩
    obtain ⟨e, he, hk⟩ := List.mem_map.1 h
    simpa [hk] using (List.mem_filter.1 he).2

/-- Registers a builder, and says whether it replaces one. -/
def register (r : Registry) (kind : StageKind) (method : String) (build : StageBuilder) : Registry × Bool :=
  (r.insert kind method build, r.contains kind method)

/-- Registers a plugin under its own name, and gives this name back if it replaces a builder. -/
def registerPlugin (r : Registry) (kind : StageKind) (plugin : StagePlugin) : Registry × Option String :=
  let (next, replaced) := r.register kind plugin.name plugin.build
  (next, if replaced then some plugin.name else none)

def methods (r : Registry) (kind : StageKind) : List String :=
  ascendingTexts ((r.entries.filter (·.1.1 == kind)).map (·.1.2))

/-- Builds the stage for a kind and method. -/
def lookup (r : Registry) (kind : StageKind) (method : String) (c : Config) (level : Nat) :
    Except AssembleError Pipeline :=
  match r.builder? kind method with
  | none => .error (.resolution ⟨kind, method, r.methods kind⟩)
  | some build => (build c level).mapError .config

def size (r : Registry) : Nat := r.entries.length

def isEmpty (r : Registry) : Bool := r.entries.isEmpty

/-- Shows the kinds and methods in ascending order. -/
def description (r : Registry) : Description :=
  .record "StageRegistry"
    [("stages", .ofList .text (ascendingTexts (r.entries.map fun e => e.1.1.name ++ "/" ++ e.1.2)))]

end Registry

end CircuitStages
