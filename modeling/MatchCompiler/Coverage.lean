import MatchCompiler.DecisionGraph
import MatchCompiler.LevelSearch

/-!
# Coverage

Which arms a graph can ever take, and whether it can fail to match at all. Every
edge counts except the one on which a test that is never true comes out true.
The search goes level by level, so that the first way to fail is a shortest one.
-/

set_option autoImplicit false

namespace MatchCompiler

/-- A node on a level of the search, with the outcomes on the way to it, the
latest first. -/
structure Visit where
  node : NodeId
  trail : List (Test × Bool)
deriving DecidableEq, Repr

/-- The edges that a run can take, with the outcome that each of them records. -/
def Node.feasible : Node → List (NodeId × Option (Test × Bool))
  | .access _ next => [(next, none)]
  | .test asked onTrue onFalse =>
      (if asked.predicate = .never then [] else [(onTrue, some (asked, true))]) ++
        [(onFalse, some (asked, false))]
  | .bind _ _ _ _ accepted rejected =>
      (accepted, none) :: rejected.toList.map fun id => (id, none)
  | .success .. | .failure => []

namespace DecisionGraph

def onward (graph : DecisionGraph) (visit : Visit) : List Visit :=
  (((graph.node? visit.node).map Node.feasible).getD []).map fun (id, outcome) =>
    ⟨id, outcome.toList ++ visit.trail⟩

/-- One visit to every node that a run can reach, the nearest first. -/
def visits (graph : DecisionGraph) : List Visit :=
  LevelSearch.visits ⟨fun visit => visit.node.index, graph.onward, graph.size⟩ [⟨graph.root, []⟩]

end DecisionGraph

structure Coverage where
  /-- Arms that no run takes, ascending. -/
  unreachableArms : List Nat
  /-- Some run may match no arm. -/
  nonExhaustive : Bool
  /-- Tests that are never true, whether or not a run can reach them. -/
  impossibleTests : List NodeId
  /-- The outcomes on a shortest way to fail. -/
  witness : Option (List (Test × Bool))
deriving DecidableEq, Repr

def Coverage.isClean (coverage : Coverage) : Bool :=
  coverage.unreachableArms.isEmpty && !coverage.nonExhaustive && coverage.impossibleTests.isEmpty

def DecisionGraph.coverage (graph : DecisionGraph) : Coverage :=
  let visits := graph.visits
  let taken := visits.filterMap fun visit => (graph.node? visit.node).bind Node.arm?
  let failed := visits.find? fun visit => graph.node? visit.node == some .failure
  { unreachableArms := (List.range graph.armCount).filter fun arm => !taken.contains arm
    nonExhaustive := failed.isSome
    impossibleTests := graph.nodesWhere Node.isImpossible
    witness := failed.map fun visit => visit.trail.reverse }

end MatchCompiler
