import MatchCompiler.DecisionGraph

/-!
# Orders on a decision graph

The nodes that can be reached from the root, in an order in which every node of
an acyclic graph comes after all nodes with an edge into it, and the edges read
backwards. Edges that leave the graph are ignored.
-/

set_option autoImplicit false

namespace MatchCompiler

/-- A depth-first search under way. A node is put in front of the finished ones
once all that lies behind it is finished. -/
structure DepthSearch where
  seen : Array Bool
  finished : List NodeId

/-- A node of the graph that was not seen before. -/
def DepthSearch.isFresh (search : DepthSearch) (id : NodeId) : Bool :=
  search.seen[id.index]? == some false

def DepthSearch.mark (search : DepthSearch) (id : NodeId) : DepthSearch :=
  { search with seen := search.seen.setIfInBounds id.index true }

namespace DecisionGraph

def searchFrom (graph : DecisionGraph) : Nat → DepthSearch → NodeId → DepthSearch
  | 0, search, _ => search
  | fuel + 1, search, id =>
      if search.isFresh id then
        let after := (graph.successors id).foldl (graph.searchFrom fuel) (search.mark id)
        { after with finished := id :: after.finished }
      else search

/-- The reachable nodes. A search goes no deeper than there are nodes, since
every step marks another one. -/
def topologicalOrder (graph : DecisionGraph) : List NodeId :=
  (graph.searchFrom graph.size ⟨Array.replicate graph.size false, []⟩ graph.root).finished

/-- Per node, the nodes with an edge into it, ascending and without repetition. -/
def predecessors (graph : DecisionGraph) : Array (List NodeId) :=
  (graph.nodes.toList.zipIdx.foldl
    (fun table entry =>
      entry.1.successors.eraseDups.foldl
        (fun table target => table.modify target.index (⟨entry.2⟩ :: ·)) table)
    (Array.replicate graph.size [])).map List.reverse

def reachableArms (graph : DecisionGraph) : List Nat :=
  let taken := graph.topologicalOrder.filterMap fun id => (graph.node? id).bind Node.arm?
  (List.range graph.armCount).filter taken.contains

end DecisionGraph

end MatchCompiler
