import CompositionIr.Outcomes
import CompositionIr.Ascending
import CompositionIr.ChildGraphs
import CompositionIr.Transitions
import CompositionIr.Sorting
import CompositionIr.KeyedMaps
import CompositionIr.Addresses
import CompositionIr.Records
import CompositionIr.Placements
import CompositionIr.Snapshots
import CompositionIr.Deltas
import CompositionIr.Commits
import CompositionIr.PublishedStates
import CompositionIr.SubtreeComparison
import CompositionIr.DeltaSpec
import CompositionIr.CommitSpec
import CompositionIr.MembershipLaw
import CompositionIr.GateReference
import CompositionIr.DeltaComposition
import CompositionIr.Processes
import CompositionIr.DomainConfinement
import CompositionIr.ExactBase
import CompositionIr.CommitTermination
import CompositionIr.InstanceSharing
import CompositionIr.AccumulatedState
import CompositionIr.Streaming
import CompositionIr.DerivedCells
import CompositionIr.Invalidation
import CompositionIr.Pruning
import CompositionIr.RevisionExhaustion
import CompositionIr.PlacementReplay
import CompositionIr.CanonicalNoOps
import CompositionIr.Texts
import CompositionIr.Frontends
import CompositionIr.Identities
import CompositionIr.LineIdentity
import CompositionIr.Spans
import CompositionIr.ShownStates
import CompositionIr.CallEffects
import CompositionIr.Adapters
import CompositionIr.AdapterEffects
import CompositionIr.AdapterRuns
import CompositionIr.IncrementalBuilds
import CompositionIr.AdapterRoutes
import CompositionIr.AdapterRoots
import CompositionIr.DebugText
import CompositionIr.Backends
import CompositionIr.Queries
import CompositionIr.Renders
import CompositionIr.EnumerationOrder
import CompositionIr.Rasters
import CompositionIr.RepaintRegions
import CompositionIr.SvgPatching
import CompositionIr.TextOffsets
import CompositionIr.Pages
import CompositionIr.Culling
import CompositionIr.Redefinitions
import CompositionIr.SharedBoxes
import CompositionIr.Handles
import CompositionIr.HandleRuns
import CompositionIr.BoundaryReads
import CompositionIr.JsonTexts
import CompositionIr.Layouts
import CompositionIr.Manifests
import CompositionIr.ManifestReading
import CompositionIr.ForeignReads
import CompositionIr.DroppedEntries
import CompositionIr.Followers
import CompositionIr.Consumers
import CompositionIr.Targets
import CompositionIr.PipelineTargets
import CompositionIr.EditParts
import CompositionIr.AdapterWork
import CompositionIr.Frontiers
import CompositionIr.DeltaDistances
import CompositionIr.Interleavings
import CompositionIr.CallOrder
import CompositionIr.Provenance
import CompositionIr.EngineAccounts
import CompositionIr.SinglePass
import CompositionIr.CaretJoins
