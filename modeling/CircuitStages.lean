import CircuitStages.Config.Data
import CircuitStages.Device.Search
import CircuitStages.Proofs.Circuit.Layout
import CircuitStages.Proofs.Circuit.Depth
import CircuitStages.Proofs.Device.Trails
import CircuitStages.Stage.Assembly
import CircuitStages.Proofs.Mapping.Replay
import CircuitStages.Proofs.Except
import CircuitStages.Proofs.Mapping.Basic
import CircuitStages.Proofs.Mapping.Dependencies
import CircuitStages.Proofs.Mapping.Progress
import CircuitStages.Proofs.Mapping.Lookahead
import CircuitStages.Proofs.Mapping.Placement
import CircuitStages.Proofs.Rewrite.Reduction
import CircuitStages.Proofs.Mapping.Linked
import CircuitStages.Proofs.Mapping.InPlace
import CircuitStages.Proofs.Stage.Assembly
import CircuitStages.Proofs.Stage.Compliance
import CircuitStages.Proofs.Rewrite.Levels
import CircuitStages.Proofs.Rewrite.Translation
import CircuitStages.Proofs.Meaning.Register
import CircuitStages.Proofs.Meaning.Turns
import CircuitStages.Proofs.Meaning.Standard
import CircuitStages.Proofs.Meaning.Controlled
import CircuitStages.Proofs.Meaning.Translation
import CircuitStages.Proofs.Meaning.Reduction
import CircuitStages.Proofs.Rewrite.Peephole
import CircuitStages.Proofs.Mapping.Kept
import CircuitStages.Proofs.Pass.WellFormed
import CircuitStages.Proofs.Device.Target
import CircuitStages.Proofs.Stage.Sizes
import CircuitStages.Proofs.Stage.Support
import CircuitStages.Proofs.Device.Tree
import CircuitStages.Proofs.Tables.Basic
import CircuitStages.Proofs.Tables.Clocks
import CircuitStages.Proofs.Tables.Peephole
import CircuitStages.Proofs.Tables.Routing
import CircuitStages.Proofs.Tables.Dependencies
import CircuitStages.Proofs.Tables.Release
import CircuitStages.Proofs.Tables.Lookahead
import CircuitStages.Proofs.Tables.Translation
import CircuitStages.Proofs.Tables.Pass
import CircuitStages.Proofs.Device.Distance
import CircuitStages.Proofs.Tables.Search
import CircuitStages.Proofs.Tables.Stored
import CircuitStages.Proofs.Mapping.Success
import CircuitStages.Proofs.Mapping.Termination
import CircuitStages.Proofs.Stage.Decision
import CircuitStages.Proofs.Stage.Authority
import CircuitStages.Proofs.Tables.Layout
import CircuitStages.Proofs.Tables.Placement
import CircuitStages.Proofs.Tables.Edit
import CircuitStages.Proofs.Pass.InRange
import CircuitStages.Proofs.Pass.Failure
import CircuitStages.Proofs.Data.Encoding
import CircuitStages.Proofs.Data.Json
import CircuitStages.Proofs.Circuit.Encoding
import CircuitStages.Proofs.Pass.RoundTrip
import CircuitStages.Proofs.Rewrite.Shrinking
import CircuitStages.Proofs.Rewrite.Tied
import CircuitStages.Proofs.Mapping.Culprit
import CircuitStages.Proofs.Mapping.FinalLayout
import CircuitStages.Proofs.Rewrite.Neighbours
import CircuitStages.Proofs.Rewrite.RoundLimit
import CircuitStages.Proofs.Schedule.Earliest
import CircuitStages.Proofs.Schedule.Latest
import CircuitStages.Proofs.Mapping.Relabelling
import CircuitStages.Proofs.Meaning.Direction
import CircuitStages.Proofs.Pass.Skipping
import CircuitStages.Proofs.Rewrite.ClassicalBits
import CircuitStages.Proofs.Pass.FreshResets
import CircuitStages.Proofs.Device.Encoding
import CircuitStages.Proofs.Device.Coverage
import CircuitStages.Proofs.Tables.Graph
import CircuitStages.Proofs.Mapping.Region
import CircuitStages.Proofs.Tables.Region
import CircuitStages.Proofs.Tables.Topologies
import CircuitStages.Proofs.Circuit.Chains
import CircuitStages.Proofs.Stage.Registry
import CircuitStages.Proofs.Text.Rounding
import CircuitStages.Proofs.Text.Decimal
import CircuitStages.Proofs.Text.Quoted
import CircuitStages.Proofs.Text.Description
import CircuitStages.Proofs.Pass.Description
