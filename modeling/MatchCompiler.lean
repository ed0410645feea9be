import MatchCompiler.BlockPlan.Run
import MatchCompiler.Checklist.Run
import MatchCompiler.Compile
import MatchCompiler.DecisionTree
import MatchCompiler.Pattern.Matching
import MatchCompiler.Proofs.AccessTable.Interning
import MatchCompiler.Proofs.AccessTable.Paths
import MatchCompiler.Proofs.BlockPlan.Placement
import MatchCompiler.Proofs.BlockPlan.Refusal
import MatchCompiler.Proofs.Checklist.Order
import MatchCompiler.Proofs.Checklist.Owners
import MatchCompiler.Proofs.Compile
import MatchCompiler.Proofs.Compile.Outcome
import MatchCompiler.Proofs.Compile.SinglePattern
import MatchCompiler.Proofs.ConstantSwitch
import MatchCompiler.Proofs.Coverage
import MatchCompiler.Proofs.Coverage.Witness
import MatchCompiler.Proofs.DecisionGraph.Caching
import MatchCompiler.Proofs.DecisionGraph.Freshness
import MatchCompiler.Proofs.DecisionGraph.NodeLimit
import MatchCompiler.Proofs.DecisionGraph.Prefix
import MatchCompiler.Proofs.DecisionGraph.Queries
import MatchCompiler.Proofs.Flow.Merge
import MatchCompiler.Proofs.Flow.NarrowedType
import MatchCompiler.Proofs.Flow.Nullness
import MatchCompiler.Proofs.Flow.Soundness
import MatchCompiler.Proofs.Hierarchy.Climbing
import MatchCompiler.Proofs.Impossible
import MatchCompiler.Proofs.Refinement
import MatchCompiler.Proofs.Safety
import MatchCompiler.Proofs.Subsumption
import MatchCompiler.Proofs.Symbol
