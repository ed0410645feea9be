import MatchCompiler.Proofs.Residual.Course

/-!
# What lasts while residuals shrink

Every residual comes from the first one by answers to steps and by guards that
reject. A property that neither can change holds at every node, whatever was
answered on the way to it.
-/

set_option autoImplicit false

namespace MatchCompiler

namespace MergeProblem

variable {problem : MergeProblem}

/-- What neither an answer nor a guard that rejects can change. -/
structure Lasting (problem : MergeProblem) (holds : Residual problem.checklists.size → Prop) :
    Prop where
  resolve : ∀ (answer : Step → Option Bool) (state : Residual problem.checklists.size),
    holds state → holds (state.filterMap (Pending.resolve answer))
  reject : ∀ (arm : Fin problem.checklists.size) (others : Residual problem.checklists.size),
    (problem.checklist arm).guard ≠ none → holds (⟨arm, []⟩ :: others) → holds others

theorem Lasting.afterAccess {holds : Residual problem.checklists.size → Prop}
    (lasting : problem.Lasting holds) {state : Residual problem.checklists.size}
    (here : holds state) (made : Access) : holds (state.afterAccess made) := by
  rw [Residual.afterAccess_eq_filterMap problem]
  exact lasting.resolve _ state here

/-- A node that carries out the moves of a residual with a property, or the leaf
of an arm that such a residual leaves nothing to do for. -/
inductive Stands (problem : MergeProblem) (nodes : Array Node)
    (holds : Residual problem.checklists.size → Prop) (id : NodeId) : Prop
  | residual {state : Residual problem.checklists.size}
      (represents : problem.Represents nodes id state) (here : holds state)
  | leaf {arm : Fin problem.checklists.size} {others : Residual problem.checklists.size}
      (found : nodes[id.index]? = some (.success arm (problem.checklist arm).label))
      (before : holds (⟨arm, []⟩ :: others))

end MergeProblem

namespace DecisionGraph

variable {graph : DecisionGraph} {problem : MergeProblem} {id target : NodeId} {node : Node}
  {holds : Residual problem.checklists.size → Prop}

/-- An edge leads to a residual with the property, or takes an arm. -/
theorem stands_of_edge (lasting : problem.Lasting holds)
    (stands : problem.Stands graph.nodes holds id) (edge : graph.Edge id target) :
    problem.Stands graph.nodes holds target := by
  obtain ⟨node, found, member⟩ := exists_node_of_edge edge
  cases stands with
  | leaf stored _ =>
      obtain rfl := Option.some.inj (found.symm.trans stored)
      exact absurd member List.not_mem_nil
  | residual represents here =>
      cases represents with
      | fail stored | take stored _ _ =>
          obtain rfl := Option.some.inj (found.symm.trans stored)
          exact absurd member List.not_mem_nil
      | bind stored _ leaf =>
          obtain rfl := Option.some.inj (found.symm.trans stored)
          obtain rfl := List.mem_singleton.mp member
          exact .leaf leaf here
      | guard stored guarded leaf below =>
          obtain rfl := Option.some.inj (found.symm.trans stored)
          rcases List.mem_cons.mp member with rfl | rejected
          · exact .leaf leaf here
          · obtain rfl := List.mem_singleton.mp rejected
            exact .residual below (lasting.reject _ _ (by simp [guarded]) here)
      | access stored _ below =>
          obtain rfl := Option.some.inj (found.symm.trans stored)
          obtain rfl := List.mem_singleton.mp member
          exact .residual below (lasting.afterAccess here _)
      | test stored _ belowTrue belowFalse =>
          obtain rfl := Option.some.inj (found.symm.trans stored)
          rcases List.mem_cons.mp member with rfl | isFalse
          · exact .residual belowTrue (lasting.resolve _ _ here)
          · obtain rfl := List.mem_singleton.mp isFalse
            exact .residual belowFalse (lasting.resolve _ _ here)

theorem stands_of_reaches (lasting : problem.Lasting holds)
    (stands : problem.Stands graph.nodes holds id) (reaches : graph.Reaches id target) :
    problem.Stands graph.nodes holds target := by
  induction reaches with
  | refl => exact stands
  | tail _ edge ih => exact stands_of_edge lasting ih edge

theorem exists_of_stands_arm? (stands : problem.Stands graph.nodes holds id)
    (found : graph.node? id = some node) {arm : Nat} (takes : node.arm? = some arm) :
    ∃ (own : Fin problem.checklists.size) (others : Residual problem.checklists.size),
      own.val = arm ∧ holds (⟨own, []⟩ :: others) := by
  cases stands with
  | leaf stored before =>
      obtain rfl := Option.some.inj (found.symm.trans stored)
      exact ⟨_, _, Option.some.inj takes, before⟩
  | residual represents here =>
      cases represents with
      | take stored _ _ | bind stored _ _ | guard stored _ _ _ =>
          obtain rfl := Option.some.inj (found.symm.trans stored)
          exact ⟨_, _, Option.some.inj takes, here⟩
      | fail stored | access stored _ _ | test stored _ _ _ =>
          obtain rfl := Option.some.inj (found.symm.trans stored)
          contradiction

theorem holds_nil_of_stands_failure (stands : problem.Stands graph.nodes holds id)
    (found : graph.node? id = some .failure) : holds [] := by
  cases stands with
  | leaf stored _ => cases found.symm.trans stored
  | residual represents here =>
      cases represents with
      | fail _ => exact here
      | take stored _ _ | bind stored _ _ | guard stored _ _ _ | access stored _ _
      | test stored _ _ _ => cases found.symm.trans stored

end DecisionGraph

end MatchCompiler
