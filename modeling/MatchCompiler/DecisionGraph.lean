import MatchCompiler.Checklist

/-!
# Decision graphs

The result of merging the checklists of all arms: nodes that make an access or
ask a test, and leaves that say which arm is taken. A graph is a plain list of
nodes; nothing forces its edges to stay inside it or to be free of cycles.
-/

set_option autoImplicit false

namespace MatchCompiler

structure NodeId where
  index : Nat
deriving DecidableEq, Hashable, Repr

def NodeId.render (id : NodeId) : String :=
  "NodeId(" ++ toString id.index ++ ")"

inductive Node where
  | access (access : Access) (next : NodeId)
  | test (test : Test) (onTrue onFalse : NodeId)
  /-- All tests of an arm have passed: its variables are bound and its guard, if
  it has one, decides. -/
  | bind (arm : Nat) (label : Label) (bindings : List Binding) (guard : Option Guard)
      (accepted : NodeId) (rejected : Option NodeId)
  | success (arm : Nat) (label : Label)
  | failure
deriving DecidableEq, Repr

namespace Node

/-- The edges of a node, the one taken on a positive answer first. -/
def successors : Node → List NodeId
  | .access _ next => [next]
  | .test _ onTrue onFalse => [onTrue, onFalse]
  | .bind _ _ _ _ accepted rejected => accepted :: rejected.toList
  | .success .. | .failure => []

/-- The arm that a node takes. -/
def arm? : Node → Option Nat
  | .bind arm .. | .success arm _ => some arm
  | _ => none

def isTestOf (test : Test) : Node → Bool
  | .test asked _ _ => asked == test
  | _ => false

def isAccessOf (access : Access) : Node → Bool
  | .access made _ => made == access
  | _ => false

def isSuccessOf (arm : Nat) : Node → Bool
  | .success taken _ => taken == arm
  | _ => false

def isImpossible : Node → Bool
  | .test asked _ _ => asked.predicate == .never
  | _ => false

end Node

structure DecisionGraph where
  nodes : Array Node
  root : NodeId
  table : AccessTable
  armCount : Nat
deriving DecidableEq, Repr

namespace DecisionGraph

def size (graph : DecisionGraph) : Nat :=
  graph.nodes.size

def isEmpty (graph : DecisionGraph) : Bool :=
  graph.nodes.isEmpty

def node? (graph : DecisionGraph) (id : NodeId) : Option Node :=
  graph.nodes[id.index]?

/-- The edges of a node; an unknown node has none. -/
def successors (graph : DecisionGraph) (id : NodeId) : List NodeId :=
  ((graph.node? id).map Node.successors).getD []

def nodesWhere (graph : DecisionGraph) (property : Node → Bool) : List NodeId :=
  (graph.nodes.toList.zipIdx.filter fun entry => property entry.1).map fun entry => ⟨entry.2⟩

def failureLeaf? (graph : DecisionGraph) : Option NodeId :=
  (graph.nodesWhere (· == .failure)).head?

def successLeaf? (graph : DecisionGraph) (arm : Nat) : Option NodeId :=
  (graph.nodesWhere (Node.isSuccessOf arm)).head?

def countTests (graph : DecisionGraph) (test : Test) : Nat :=
  (graph.nodesWhere (Node.isTestOf test)).length

def countAccesses (graph : DecisionGraph) (access : Access) : Nat :=
  (graph.nodesWhere (Node.isAccessOf access)).length

end DecisionGraph

end MatchCompiler
