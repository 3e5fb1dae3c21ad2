import AliasTaint.Sorted.Map
import AliasTaint.Sorted.Set
import AliasTaint.Error
import AliasTaint.Access.Path
import AliasTaint.Access.Grammar
import AliasTaint.Access.Location
import AliasTaint.Value.CollapseDepth
import AliasTaint.Value.Features
import AliasTaint.Value.Positions
import AliasTaint.Partition
import AliasTaint.Tree.Node
import AliasTaint.Tree.Merge
import AliasTaint.Tree.Basic
import AliasTaint.PointsTo.AliasMap
import AliasTaint.Taint.DeepRead
import AliasTaint.Heuristics.Session
import AliasTaint.Heuristics.Yaml
import AliasTaint.Json.Forms
import AliasTaint.Proofs.Entries
import AliasTaint.Proofs.SortedSet
import AliasTaint.Proofs.Lattice
import AliasTaint.Proofs.LatticeOn
import AliasTaint.Proofs.Value.Features
import AliasTaint.Proofs.Value.Positions
import AliasTaint.Proofs.Partition
import AliasTaint.Proofs.Value.WellFormed
import AliasTaint.Proofs.Value.Rank
import AliasTaint.Proofs.Tree.View
import AliasTaint.Proofs.Tree.Order
import AliasTaint.Proofs.Tree.Normal
import AliasTaint.Proofs.Tree.Bounds
import AliasTaint.Proofs.Tree.Embedding
import AliasTaint.Proofs.Tree.Meet
import AliasTaint.Proofs.Tree.Along
import AliasTaint.Proofs.Tree.Hoist
import AliasTaint.Proofs.Tree.Stored
import AliasTaint.Proofs.Tree.NormalOn
import AliasTaint.Proofs.Tree.Write
import AliasTaint.Proofs.Value.Stamp
import AliasTaint.Proofs.Taint.Cross
import AliasTaint.Proofs.PointsTo.Edges
import AliasTaint.Proofs.Taint.DeepRead
import AliasTaint.Proofs.Taint.DeepReadMonotone
import AliasTaint.Proofs.Taint.Widen
import AliasTaint.Proofs.Taint.WidenChain
import AliasTaint.Proofs.Taint.Equality
import AliasTaint.Proofs.Taint.EnvironmentWiden
import AliasTaint.Proofs.Taint.EnvironmentRead
import AliasTaint.Proofs.Tree.ReadBack
import AliasTaint.Proofs.Taint.WriteLocations
import AliasTaint.Proofs.Taint.DeepReadEnvironment
import AliasTaint.Proofs.Taint.UnknownAliases
import AliasTaint.Proofs.PartitionPointwise
import AliasTaint.Proofs.Taint.LocationReads
import AliasTaint.Proofs.Value.Obtained
import AliasTaint.Proofs.Access.Grammar
import AliasTaint.Proofs.Cumulative
import AliasTaint.Proofs.Tree.Elements
import AliasTaint.Proofs.PointsTo.Recording
import AliasTaint.Proofs.Tree.ReadComposition
import AliasTaint.Proofs.Taint.BoundedCollapse
import AliasTaint.Proofs.Taint.StampedViews
import AliasTaint.Proofs.Taint.CollapseMarks
import AliasTaint.Proofs.PointsTo.EmptyStamp
import AliasTaint.Proofs.Value.Accumulation
import AliasTaint.Proofs.Access.Interning
import AliasTaint.Proofs.Heuristics.InstallOnce
import AliasTaint.Proofs.Refusal.Interface
import AliasTaint.Proofs.Refusal.Partition
import AliasTaint.Proofs.Refusal.Tree
import AliasTaint.Proofs.Refusal.PointsTo
import AliasTaint.Proofs.Refusal.Taint
import AliasTaint.Proofs.Refusal.Operations
import AliasTaint.Proofs.Json.Spelling
import AliasTaint.Proofs.Json.RoundTrip
import AliasTaint.Proofs.Tree.CollapseAgreement
import AliasTaint.Proofs.Taint.LongestReads
