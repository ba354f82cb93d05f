import Verax.Lib.SubsetGrowth
import Verax.Lib.StateExcept
import Verax.Lib.ConnectedPairs
import Verax.JoinOrder.RelationSet
import Verax.JoinOrder.JoinHypergraph
import Verax.Lib.ParentMap
import Verax.JoinOrder.CoverColumns
import Verax.JoinOrder.PlanSet
import Verax.JoinOrder.CostModel
import Verax.JoinOrder.Candidates
import Verax.JoinOrder.DPhyp
import Verax.JoinOrder.Completeness
import Verax.JoinOrder.HypergraphBuilder
import Verax.JoinOrder.Enforcement
import Verax.JoinOrder.EnforcedPlans
import Verax.JoinOrder.Frontier
import Verax.JoinOrder.Liveness
import Verax.JoinOrder.Greedy
import Verax.JoinOrder.GreedyProgress
import Verax.JoinOrder.DistributedPlans
import Verax.LimitAndOrder.Refinement
import Verax.LimitAndOrder.RowBounds
import Verax.Names.Resolution
import Verax.Ctes.Translation
import Verax.Ctes.CteScope
import Verax.Ctes.LexicalScope
import Verax.Ctes.SelfReferences
import Verax.Filters.SimplifyFilter
import Verax.Filters.ImpliedFilters
import Verax.Filters.TransitiveNecessity
import Verax.LowerRepeat.ReturnsWalks
import Verax.Grouping.GroupingCalls
import Verax.Ranking.Rewrite
import Verax.JoinKeys.Normalization
import Verax.DistinctAggregates.Soundness
import Verax.Unnests.Soundness
import Verax.Literals.Intervals
import Verax.Literals.Decimals
import Verax.NonNull.NonNullOutput
import Verax.JoinFilters.Soundness
import Verax.Projections.Soundness
