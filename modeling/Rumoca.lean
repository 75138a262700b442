import Rumoca.Lib.Loop
import Rumoca.Lib.Bfs
import Rumoca.Lib.Components
import Rumoca.Lib.Bipartite
import Rumoca.Lib.AssignmentDuality
import Rumoca.Structural.Incidence
import Rumoca.Structural.TarjanOrder
import Rumoca.Structural.Tearing
import Rumoca.Structural.OffsetsLeast
import Rumoca.Structural.BltOrder
import Rumoca.Structural.MatchingMax
import Rumoca.Solve.SymbolicSound
import Rumoca.Flatten.ConnectionSetsExact
import Rumoca.Flatten.VcgOrientation
import Rumoca.Dae.AliasQuotientExact
import Rumoca.Structural.TimeInvariantSound
import Rumoca.Lib.SignedForest
import Rumoca.Structural.EqualitiesOperands
import Rumoca.Structural.EqualitiesRounds
import Rumoca.Lib.Straightline
import Rumoca.Solve.RegisterReads
import Rumoca.Solve.DeadConstants
import Rumoca.Solve.DeadOperations
import Rumoca.Core.IndexImage
import Rumoca.Flatten.PathText
import Rumoca.Flatten.PathOrder
import Rumoca.Solver.DelayPruning
import Rumoca.Eval.SingleAssignment
import Rumoca.Core.CheckedProgression
import Rumoca.Core.DependencyGraph
import Rumoca.Core.DependencyGraphOrder
import Rumoca.Core.IndexUnions
import Rumoca.Core.PointSolutions
import Rumoca.Core.StructuredDomain
import Rumoca.Eval.DependencyClosure
import Rumoca.Eval.ReadyQueue
import Rumoca.Eval.RefreshOrder
import Rumoca.Flatten.EqualityLinks
import Rumoca.Flatten.EqualityLinksTree
import Rumoca.Flatten.VcgBreaks
import Rumoca.Flatten.VcgOrder
import Rumoca.Lib.Alternating
import Rumoca.Lib.GroupedDifferences
import Rumoca.Structural.AssignmentWeight
import Rumoca.Structural.MatchingGrown
import Rumoca.Structural.MatchingPreferences
import Rumoca.Structural.OverDetermined
import Rumoca.Structural.TearingPlan
import Rumoca.Structural.TensorOffsets
import Rumoca.Structural.TensorOffsetsLeast
import Rumoca.Core.ClockRational
import Rumoca.Core.ClockRationalExact
import Rumoca.Lib.Intervals
import Rumoca.Lib.Relocation
import Rumoca.Solve.IndexIntervals
import Rumoca.Solve.RegisterLayout
import Rumoca.Solve.RegisterLayoutExact
import Rumoca.Solve.RegisterViews
import Rumoca.Solve.ScalarOutputPlacements
import Rumoca.Solve.ScalarOutputPlacementsExact
import Rumoca.Solve.StorageRunIndex
import Rumoca.Solver.EventHistory
import Rumoca.Solver.EventHistoryAdvance
import Rumoca.Structural.EliminationOrder
import Rumoca.Core.SourceMapExact
import Rumoca.Eval.TableSchedule
import Rumoca.Solve.AffinitySound
import Rumoca.Solve.IntegerInterval
import Rumoca.Solve.ProjectionStagesExact
import Rumoca.Solve.RootBracket
import Rumoca.Solver.SampleTimes
import Rumoca.Solve.ChartPlanDelta
import Rumoca.Eval.LinearSolveExact
import Rumoca.Eval.TableSlopes
import Rumoca.Fmt.IdempotentExact
import Rumoca.Sim.SessionLinesExact
import Rumoca.Solve.DefinedRegistersExact
import Rumoca.Solve.IntegerDivision
import Rumoca.Solve.BlockSplit
