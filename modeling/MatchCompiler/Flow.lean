import MatchCompiler.DecisionGraph.Order
import MatchCompiler.Fact

/-!
# Flow of facts

Facts are carried from the root along the edges of a graph, node by node in
topological order, and joined where edges meet. The edge on which a test that is
never true comes out true carries nothing, so a node without facts is one that
no run reaches.
-/

set_option autoImplicit false

namespace MatchCompiler

/-- What is known about a variable where it is bound. -/
structure VariableFact where
  name : Symbol
  temp : Temp
  fact : Fact
deriving DecidableEq, Repr

namespace VariableFact

def ofBindings (facts : Facts) (bindings : List Binding) : List VariableFact :=
  bindings.filterMap fun binding =>
    (facts.get? binding.temp).map fun fact => ⟨binding.name, binding.temp, fact⟩

/-- What holds where either list does; a variable missing from the second one is
dropped. -/
def joinAll (table : AccessTable) (mine others : List VariableFact) : List VariableFact :=
  mine.filterMap fun entry =>
    (others.find? fun other => other.temp == entry.temp && other.name == entry.name).map fun other =>
      { entry with fact := entry.fact.join (table.typeOf entry.temp) other.fact }

end VariableFact

/-- The edges that carry facts, with the facts that hold once they are taken. -/
def Node.outflow (types : TypeOracle) (table : AccessTable) (facts : Facts) :
    Node → List (NodeId × Facts)
  | .access made next => [(next, facts.afterAccess types table made)]
  | .test asked onTrue onFalse =>
      (if asked.predicate = .never then [] else [(onTrue, facts.afterTest asked true)]) ++
        [(onFalse, facts.afterTest asked false)]
  | .bind _ _ _ _ accepted rejected => (accepted :: rejected.toList).map fun id => (id, facts)
  | .success .. | .failure => []

structure Flow where
  /-- What is known on entry to each node, for the nodes that a run can reach. -/
  states : Array (Option Facts)
  /-- Per arm, the facts about its variables, once it was met. -/
  bound : Array (Option (List VariableFact))
deriving DecidableEq, Repr

namespace Flow

def stateAt? (flow : Flow) (node : NodeId) : Option Facts :=
  flow.states[node.index]?.join

/-- The facts about an arm's variables, which hold wherever the arm binds them. -/
def variablesOf (flow : Flow) (arm : Nat) : List VariableFact :=
  (flow.bound[arm]?.join).getD []

def unreachable (flow : Flow) : List NodeId :=
  (flow.states.toList.zipIdx.filter fun entry => entry.1.isNone).map fun entry => ⟨entry.2⟩

def arrive (table : AccessTable) (flow : Flow) (edge : NodeId × Facts) : Flow :=
  { flow with
    states := flow.states.modify edge.1.index fun
      | none => some edge.2
      | some facts => some (facts.join table edge.2) }

def record (table : AccessTable) (facts : Facts) (flow : Flow) : Node → Flow
  | .bind arm _ bindings _ _ _ =>
      let here := VariableFact.ofBindings facts bindings
      { flow with
        bound := flow.bound.modify arm fun
          | none => some here
          | some others => some (VariableFact.joinAll table others here) }
  | _ => flow

def visit (types : TypeOracle) (graph : DecisionGraph) (flow : Flow) (id : NodeId) : Flow :=
  match flow.stateAt? id, graph.node? id with
  | some facts, some node =>
      (node.outflow types graph.table facts).foldl (arrive graph.table)
        (flow.record graph.table facts node)
  | _, _ => flow

def start (types : TypeOracle) (graph : DecisionGraph) : Flow where
  states := (Array.replicate graph.size none).setIfInBounds graph.root.index
    (some (Facts.initial types graph.table))
  bound := Array.replicate graph.armCount none

end Flow

def DecisionGraph.flow (graph : DecisionGraph) (types : TypeOracle) : Flow :=
  graph.topologicalOrder.foldl (Flow.visit types graph) (Flow.start types graph)

end MatchCompiler
