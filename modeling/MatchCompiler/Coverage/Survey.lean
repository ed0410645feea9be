import MatchCompiler.Coverage

/-!
# The search with a queue

The nodes that a run can come to, found by a search that keeps them in a queue,
with the edge that each of them was first met over. From the first leaf that fails
these edges are followed back, which spells out a shortest way to fail.
-/

set_option autoImplicit false

namespace MatchCompiler

/-- The edges that a run can take, with what a test comes out as on them. -/
def Node.feasibleEdges : Node → List (NodeId × Option Bool)
  | .access _ next => [(next, none)]
  | .test asked onTrue onFalse =>
      (if asked.predicate = .never then [] else [(onTrue, some true)]) ++ [(onFalse, some false)]
  | .bind _ _ _ _ accepted rejected =>
      (accepted, none) :: rejected.toList.map fun id => (id, none)
  | .success .. | .failure => []

def Node.recorded : Node → Option Bool → Option (Test × Bool)
  | .test asked _ _, some outcome => some (asked, outcome)
  | _, _ => none

/-- The edge that a node was first met over, from its source. -/
structure Survey.Entry where
  source : NodeId
  outcome : Option Bool
deriving DecidableEq, Repr

structure Survey where
  /-- Per arm, whether a node took it. -/
  taken : Array Bool
  entries : Array (Option Survey.Entry)
  met : Array Bool
  queue : List NodeId
  /-- The first leaf that fails. -/
  failed : Option NodeId
deriving DecidableEq, Repr

namespace Survey

/-- Takes up a node of the graph that was not met before. -/
def meet (source : NodeId) (survey : Survey) (edge : NodeId × Option Bool) : Survey :=
  if survey.met[edge.1.index]? = some false then
    { survey with
      met := survey.met.setIfInBounds edge.1.index true
      entries := survey.entries.setIfInBounds edge.1.index (some ⟨source, edge.2⟩)
      queue := survey.queue ++ [edge.1] }
  else survey

def note (survey : Survey) (id : NodeId) : Node → Survey
  | .bind arm .. | .success arm _ => { survey with taken := survey.taken.setIfInBounds arm true }
  | .failure => { survey with failed := survey.failed.or (some id) }
  | .access .. | .test .. => survey

/-- One round: notes a node, and takes up what its edges lead to. -/
def round (survey : Survey) (id : NodeId) (node : Node) : Survey :=
  node.feasibleEdges.foldl (meet id) (survey.note id node)

end Survey

namespace DecisionGraph

/-- Nothing is met but the root, which need not be in the graph. -/
def beginSurvey (graph : DecisionGraph) : Survey where
  taken := Array.replicate graph.armCount false
  entries := Array.replicate graph.size none
  met := (Array.replicate graph.size false).setIfInBounds graph.root.index true
  queue := if graph.root.index < graph.size then [graph.root] else []
  failed := none

/-- Works off the queue. Without an end after so many rounds, or with a node in the
queue that is not in the graph, the result is `none`. -/
def runSurvey (graph : DecisionGraph) : Nat → Survey → Option Survey
  | rounds, survey =>
      match survey.queue with
      | [] => some survey
      | id :: rest =>
          match rounds, graph.node? id with
          | rounds + 1, some node =>
              graph.runSurvey rounds ({ survey with queue := rest }.round id node)
          | _, _ => none

/-- Goes back from a node over the edges that the nodes were first met over, and
lists what is recorded on them from the start to the node. -/
def retraceSurvey (graph : DecisionGraph) (entries : Array (Option Survey.Entry)) :
    Nat → List (Test × Bool) → NodeId → Option (List (Test × Bool))
  | rounds, path, id =>
      match entries[id.index]? with
      | some (some entry) =>
          match rounds, graph.node? entry.source with
          | rounds + 1, some node =>
              graph.retraceSurvey entries rounds
                (path ++ (node.recorded entry.outcome).toList) entry.source
          | _, _ => none
      | _ => some path.reverse

/-- The coverage, if the search ends after so many rounds, and the way back too. -/
def surveyedCoverage (graph : DecisionGraph) (rounds : Nat) : Option Coverage := do
  let survey ← graph.runSurvey rounds graph.beginSurvey
  let witness ← survey.failed.mapM (graph.retraceSurvey survey.entries rounds [])
  return {
    unreachableArms := (List.range survey.taken.size).filter fun arm => survey.taken[arm]? == some false
    nonExhaustive := survey.failed.isSome
    impossibleTests := graph.nodesWhere Node.isImpossible
    witness }

end DecisionGraph

end MatchCompiler
