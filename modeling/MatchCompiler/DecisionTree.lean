import MatchCompiler.DecisionGraph.Construction

/-!
# Decision trees

What a graph would be if no two ways through it shared a node. `MergeProblem.tree`
follows the moves from a residual with nothing remembered; `Unfolds` reads a tree
off the nodes of a graph.
-/

set_option autoImplicit false

namespace MatchCompiler

inductive DecisionTree where
  | access (access : Access) (next : DecisionTree)
  | test (test : Test) (onTrue onFalse : DecisionTree)
  | bind (arm : Nat) (label : Label) (bindings : List Binding) (guard : Option Guard)
      (accepted : DecisionTree) (rejected : Option DecisionTree)
  | success (arm : Nat) (label : Label)
  | failure

namespace MergeProblem

def tree (problem : MergeProblem) (state : Residual problem.checklists.size) : DecisionTree :=
  match _moved : problem.move state with
  | .fail => .failure
  | .accept arm others =>
      let checklist := problem.checklist arm
      let success := .success arm checklist.label
      match checklist.guard with
      | none =>
          if checklist.bindings.isEmpty then success
          else .bind arm checklist.label checklist.bindings none success none
      | some guard =>
          .bind arm checklist.label checklist.bindings (some guard) success
            (some (problem.tree others))
  | .access access next => .access access (problem.tree next)
  | .test test onTrue onFalse => .test test (problem.tree onTrue) (problem.tree onFalse)
termination_by state.weight
decreasing_by
  · exact problem.weight_of_move_accept _ _ _ _moved
  · exact problem.weight_of_move_access _ _ _ _moved
  · exact (problem.weight_of_move_test _ _ _ _ _moved).1
  · exact (problem.weight_of_move_test _ _ _ _ _moved).2

end MergeProblem

inductive Unfolds (nodes : Array Node) : NodeId → DecisionTree → Prop
  | access (id next : NodeId) (made : Access) (tree : DecisionTree)
      (found : nodes[id.index]? = some (.access made next)) (below : Unfolds nodes next tree) :
      Unfolds nodes id (.access made tree)
  | test (id onTrue onFalse : NodeId) (asked : Test) (yes no : DecisionTree)
      (found : nodes[id.index]? = some (.test asked onTrue onFalse))
      (belowTrue : Unfolds nodes onTrue yes) (belowFalse : Unfolds nodes onFalse no) :
      Unfolds nodes id (.test asked yes no)
  | bind (id accepted : NodeId) (arm : Nat) (label : Label) (bindings : List Binding)
      (guard : Option Guard) (yes : DecisionTree)
      (found : nodes[id.index]? = some (.bind arm label bindings guard accepted none))
      (belowAccepted : Unfolds nodes accepted yes) :
      Unfolds nodes id (.bind arm label bindings guard yes none)
  | guarded (id accepted rejected : NodeId) (arm : Nat) (label : Label) (bindings : List Binding)
      (guard : Option Guard) (yes no : DecisionTree)
      (found : nodes[id.index]? = some (.bind arm label bindings guard accepted (some rejected)))
      (belowAccepted : Unfolds nodes accepted yes) (belowRejected : Unfolds nodes rejected no) :
      Unfolds nodes id (.bind arm label bindings guard yes (some no))
  | success (id : NodeId) (arm : Nat) (label : Label)
      (found : nodes[id.index]? = some (.success arm label)) :
      Unfolds nodes id (.success arm label)
  | failure (id : NodeId) (found : nodes[id.index]? = some .failure) : Unfolds nodes id .failure

end MatchCompiler
