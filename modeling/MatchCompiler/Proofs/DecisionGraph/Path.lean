import MatchCompiler.Proofs.DecisionGraph.Order
import MatchCompiler.Test

/-!
# Paths through a decision graph

A path is told by its turns: what it does at each node that it leaves. The two
edges of a test are different turns, even where they lead to the same node. A
path is possible if no test that is never true comes out true on it.
-/

set_option autoImplicit false

namespace MatchCompiler

/-- What a path does at a node before it goes on. -/
inductive Turn where
  | access (made : Access)
  | test (asked : Test) (outcome : Bool)
  | bind (arm : Nat) (accepted : Bool)
deriving DecidableEq, Repr

namespace Turn

def step? : Turn → Option Step
  | .access made => some (.access made)
  | .test asked _ => some (.test asked)
  | .bind .. => none

/-- A test that is never true comes out false. -/
def Possible : Turn → Prop
  | .test asked outcome => asked.predicate = .never → outcome = false
  | _ => True

end Turn

def Node.turns : Node → List (Turn × NodeId)
  | .access made next => [(.access made, next)]
  | .test asked onTrue onFalse => [(.test asked true, onTrue), (.test asked false, onFalse)]
  | .bind arm _ _ _ accepted rejected =>
      (.bind arm true, accepted) :: rejected.toList.map fun id => (.bind arm false, id)
  | .success .. | .failure => []

theorem Node.mem_successors_iff {node : Node} {target : NodeId} :
    target ∈ node.successors ↔ ∃ turn, (turn, target) ∈ node.turns := by
  have same : node.turns.map Prod.snd = node.successors := by
    cases node <;> simp [turns, successors, Function.comp_def]
  rw [← same]
  simp

theorem Node.mem_successors_of_turn {node : Node} {turn : Turn} {target : NodeId}
    (taken : (turn, target) ∈ node.turns) : target ∈ node.successors :=
  mem_successors_iff.mpr ⟨turn, taken⟩

theorem Node.eq_access_of_turn {node : Node} {made : Access} {target : NodeId}
    (taken : (.access made, target) ∈ node.turns) : node = .access made target := by
  cases node <;> simp_all [turns]

namespace DecisionGraph

/-- The turns that lead from `start` to a node. -/
inductive Path (graph : DecisionGraph) (start : NodeId) : List Turn → NodeId → Prop
  | nil : Path graph start [] start
  | snoc {turns : List Turn} {id target : NodeId} {node : Node} {turn : Turn}
      (path : Path graph start turns id) (found : graph.node? id = some node)
      (taken : (turn, target) ∈ node.turns) : Path graph start (turns ++ [turn]) target

variable {graph : DecisionGraph} {start id target : NodeId} {turns : List Turn} {node : Node}
  {turn : Turn}

theorem Path.reaches (path : graph.Path start turns id) : graph.Reaches start id := by
  induction path with
  | nil => exact .refl
  | snoc _ found taken ih => exact ih.tail (edge_of_node found (Node.mem_successors_of_turn taken))

theorem Path.exists_of_split {front back : List Turn}
    (path : graph.Path start (front ++ turn :: back) id) :
    ∃ source node target, graph.Path start front source ∧ graph.node? source = some node ∧
      (turn, target) ∈ node.turns := by
  generalize split : front ++ turn :: back = turns at path
  induction path generalizing back with
  | nil => simp at split
  | @snoc turns source target node last before found taken ih =>
      rcases List.eq_nil_or_concat back with rfl | ⟨back, other, rfl⟩
      · obtain ⟨rfl, isLast⟩ := List.append_inj' split rfl
        obtain rfl := (List.cons.inj isLast).1
        exact ⟨source, node, target, before, found, taken⟩
      · rw [List.concat_eq_append, ← List.cons_append, ← List.append_assoc] at split
        exact ih (List.append_inj' split rfl).1

theorem exists_path_of_reaches (reaches : graph.Reaches start id) :
    ∃ turns, graph.Path start turns id := by
  induction reaches with
  | refl => exact ⟨[], .nil⟩
  | tail _ edge ih =>
      obtain ⟨turns, path⟩ := ih
      obtain ⟨node, found, member⟩ := exists_node_of_edge edge
      obtain ⟨turn, taken⟩ := Node.mem_successors_iff.mp member
      exact ⟨turns ++ [turn], path.snoc found taken⟩

def Feasible (graph : DecisionGraph) (id : NodeId) : Prop :=
  ∃ turns, graph.Path graph.root turns id ∧ ∀ turn ∈ turns, turn.Possible

theorem feasible_root (graph : DecisionGraph) : graph.Feasible graph.root :=
  ⟨[], .nil, fun _ member => absurd member List.not_mem_nil⟩

theorem Feasible.onward (feasible : graph.Feasible id) (found : graph.node? id = some node)
    (taken : (turn, target) ∈ node.turns) (possible : turn.Possible) : graph.Feasible target := by
  obtain ⟨turns, path, all⟩ := feasible
  refine ⟨turns ++ [turn], path.snoc found taken, fun other member => ?_⟩
  rcases List.mem_append.mp member with before | last
  · exact all other before
  · rw [List.mem_singleton.mp last]
    exact possible

/-- The last turn of a possible path starts where a possible path leads to. -/
theorem Feasible.root_or_onward (feasible : graph.Feasible id) :
    id = graph.root ∨ ∃ source node turn, graph.Feasible source ∧
      graph.node? source = some node ∧ (turn, id) ∈ node.turns ∧ turn.Possible := by
  obtain ⟨turns, path, all⟩ := feasible
  cases path with
  | nil => exact Or.inl rfl
  | snoc path found taken =>
      exact Or.inr ⟨_, _, _, ⟨_, path, fun other member => all other (List.mem_append_left _ member)⟩,
        found, taken, all _ (by simp)⟩

theorem Feasible.reaches (feasible : graph.Feasible id) : graph.Reaches graph.root id := by
  obtain ⟨_, path, _⟩ := feasible
  exact path.reaches

end DecisionGraph

end MatchCompiler
