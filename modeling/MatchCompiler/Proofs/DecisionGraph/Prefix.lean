import Mathlib
import MatchCompiler.Proofs.DecisionGraph.Shape
import MatchCompiler.Proofs.Refinement
import MatchCompiler.Proofs.Residual.Invariant

/-!
# What all arms begin with

Steps that all arms begin with are carried out for all of them at once. As long
as an arm is left, those of the steps that have no answer yet are in front in
every arm, so the next of them is what the node carries out, whichever arm it is
chosen for. A test among them that comes out false leaves no arm, and a step that
was answered is not waited for again.
-/

set_option autoImplicit false

namespace MatchCompiler

namespace Residual

variable {count : Nat} {problem : MergeProblem} {state : Residual count} {turn : Turn}
  {common : List Step} {step : Step}

/-- What is left to do begins with the same steps in every arm. -/
def Shares (common : List Step) (state : Residual count) : Prop :=
  ∀ pending ∈ state, common <+: pending.todo

def Without (step : Step) (state : Residual count) : Prop :=
  ∀ pending ∈ state, step ∉ pending.todo

theorem Shares.onward (shares : state.Shares common) :
    (state.onward problem turn).Shares (common.filter (turn.settles problem · != some true)) := by
  intro pending member
  obtain ⟨before, inState, rfl, _⟩ := exists_of_mem_onward member
  exact (shares before inState).filter _

theorem Shares.onward_eq_nil (shares : state.Shares common) (member : step ∈ common)
    (refused : turn.settles problem step = some false) : state.onward problem turn = [] := by
  refine List.eq_nil_iff_forall_not_mem.mpr fun pending isLeft => ?_
  obtain ⟨before, inState, _, unrefused⟩ := exists_of_mem_onward isLeft
  exact unrefused step ((shares before inState).subset member) refused

theorem without_onward (answered : turn.settles problem step ≠ none) :
    (state.onward problem turn).Without step :=
  fun _ member inTodo => answered (settles_of_mem_onward member inTodo)

end Residual

theorem MergeProblem.lasting_without (problem : MergeProblem) (step : Step) :
    problem.Lasting (Residual.Without step) where
  resolve := by
    intro answer state without left member inTodo
    obtain ⟨pending, inState, resolved⟩ := List.mem_filterMap.mp member
    rw [(Pending.resolve_eq_some resolved).1] at inTodo
    exact without pending inState (List.mem_of_mem_filter inTodo)
  reject := fun _ _ _ without pending member => without pending (List.mem_cons_of_mem _ member)

/-- A step is carried out with one turn that finds it done; the others refuse it. -/
theorem Node.exists_passing_turn (problem : MergeProblem) {node : Node} {step : Step}
    (carriesOut : node.step? = some step) :
    ∃ next turn, (turn, next) ∈ node.turns ∧ turn.settles problem step = some true ∧
      ∀ other target, (other, target) ∈ node.turns →
        target = next ∨ other.settles problem step = some false := by
  cases node with
  | access made next =>
      obtain rfl := Option.some.inj carriesOut
      refine ⟨next, .access made, List.mem_cons_self, if_pos rfl, fun other target taken => ?_⟩
      exact Or.inl (Prod.mk.inj (List.mem_singleton.mp taken)).2
  | test asked onTrue onFalse =>
      obtain rfl := Option.some.inj carriesOut
      refine ⟨onTrue, .test asked true, List.mem_cons_self, Residual.settled_self problem asked true,
        fun other target taken => ?_⟩
      rcases List.mem_cons.mp taken with isTrue | isFalse
      · exact Or.inl (Prod.mk.inj isTrue).2
      · obtain ⟨rfl, _⟩ := Prod.mk.inj (List.mem_singleton.mp isFalse)
        exact Or.inr (Residual.settled_self problem asked false)
  | bind | success | failure => contradiction

namespace DecisionGraph

variable {graph : DecisionGraph} {problem : MergeProblem} {id other next : NodeId} {node : Node}
  {state : Residual problem.checklists.size} {common : List Step} {first step : Step}

/-- A node carries out a step. -/
def Performs (graph : DecisionGraph) (id : NodeId) (step : Step) : Prop :=
  ∃ node, graph.node? id = some node ∧ node.step? = some step

/-- From a node on, a step is carried out at one node at most; if it is a test, its
false edge leads to the failure leaf. -/
def OnceFrom (graph : DecisionGraph) (id : NodeId) (step : Step) : Prop :=
  ∃ holder, ∀ other, graph.Reaches id other → graph.Performs other step →
    other = holder ∧ ∀ asked onTrue onFalse,
      graph.node? other = some (.test asked onTrue onFalse) →
        graph.node? onFalse = some .failure

theorem not_performs_of_without (represents : problem.Represents graph.nodes id state)
    (without : state.Without step) (reaches : graph.Reaches id other) :
    ¬ graph.Performs other step := by
  rintro ⟨node, found, carriesOut⟩
  cases stands_of_reaches (problem.lasting_without step) (.residual represents without) reaches with
  | leaf stored _ =>
      obtain rfl := Option.some.inj (found.symm.trans stored)
      contradiction
  | residual behind gone =>
      obtain ⟨pending, member, isHead⟩ := waiting_of_represents behind found carriesOut
      exact gone pending member (List.mem_of_mem_head? isHead)

theorem onceFrom_of_without (represents : problem.Represents graph.nodes id state)
    (without : state.Without step) : graph.OnceFrom id step :=
  ⟨id, fun _ reaches performs =>
    absurd performs (not_performs_of_without represents without reaches)⟩

theorem node?_of_represents_nil (represents : problem.Represents graph.nodes id []) :
    graph.node? id = some .failure := by
  cases represents with
  | fail found => exact found
  | access _ moved _ =>
      obtain ⟨_, member, _⟩ := (MergeProblem.move_eq_access moved).1
      contradiction
  | test _ moved _ _ =>
      obtain ⟨_, member, _⟩ := (MergeProblem.move_eq_test moved).1
      contradiction

theorem performs_of_shares (represents : problem.Represents graph.nodes id state)
    (shares : state.Shares (first :: common)) (notEmpty : state ≠ []) :
    graph.Performs id first := by
  have next : ∀ {node : Node} {step : Step}, graph.node? id = some node →
      node.step? = some step → graph.Performs id first := by
    intro node step found carriesOut
    obtain ⟨pending, member, isHead⟩ := waiting_of_represents represents found carriesOut
    obtain ⟨rest, isTodo⟩ := shares pending member
    rw [← isTodo] at isHead
    obtain rfl : first = step := Option.some.inj isHead
    exact ⟨node, found, carriesOut⟩
  cases represents with
  | fail => exact absurd rfl notEmpty
  | take | bind | guard =>
      exact absurd (List.prefix_nil.mp (shares _ List.mem_cons_self)) (List.cons_ne_nil _ _)
  | access found _ _ | test found _ _ _ => exact next found rfl

theorem OnceFrom.behind (once : graph.OnceFrom next step) (found : graph.node? id = some node)
    (apart : node.step? ≠ some step)
    (onward : ∀ target, graph.Edge id target →
      target = next ∨ ∀ other, graph.Reaches target other → ¬ graph.Performs other step) :
    graph.OnceFrom id step := by
  obtain ⟨holder, unique⟩ := once
  refine ⟨holder, fun other reaches performs => ?_⟩
  rcases Relation.ReflTransGen.cases_head reaches with rfl | ⟨target, edge, rest⟩
  · obtain ⟨_, isNode, carriesOut⟩ := performs
    obtain rfl := Option.some.inj (found.symm.trans isNode)
    exact absurd carriesOut apart
  · rcases onward target edge with rfl | unperformed
    · exact unique other rest performs
    · exact absurd performs (unperformed other rest)

theorem onceFrom_of_here
    (fails : ∀ asked onTrue onFalse, graph.node? id = some (.test asked onTrue onFalse) →
      graph.node? onFalse = some .failure)
    (onward : ∀ target, graph.Edge id target →
      ∀ other, graph.Reaches target other → ¬ graph.Performs other step) :
    graph.OnceFrom id step := by
  refine ⟨id, fun other reaches performs => ?_⟩
  rcases Relation.ReflTransGen.cases_head reaches with rfl | ⟨target, edge, rest⟩
  · exact ⟨rfl, fails⟩
  · exact absurd performs (onward target edge other rest)

theorem represents_onward (represents : problem.Represents graph.nodes id state)
    (found : graph.node? id = some node) (carriesOut : node.step? = some step) {turn : Turn}
    (taken : (turn, other) ∈ node.turns) :
    problem.Represents graph.nodes other (state.onward problem turn) := by
  rcases represents_of_turn represents found taken with onward | ⟨arm, _, rfl, _⟩
  · exact onward
  · rw [Node.step?_of_turn taken] at carriesOut
    contradiction

theorem exists_turn_of_edge (found : graph.node? id = some node) (edge : graph.Edge id other) :
    ∃ turn, (turn, other) ∈ node.turns := by
  obtain ⟨_, isNode, isNext⟩ := exists_node_of_edge edge
  obtain rfl := Option.some.inj (found.symm.trans isNode)
  exact Node.mem_successors_iff.mp isNext

/-- The first common step is carried out at the node, and not behind it. -/
theorem onceFrom_head (represents : problem.Represents graph.nodes id state)
    (shares : state.Shares (first :: common)) (performs : graph.Performs id first) :
    graph.OnceFrom id first := by
  obtain ⟨node, found, carriesOut⟩ := performs
  refine onceFrom_of_here (fun asked onTrue onFalse isTest => ?_) fun target edge => ?_
  · obtain rfl := Option.some.inj (found.symm.trans isTest)
    obtain rfl := Option.some.inj carriesOut
    have refused : (Turn.test asked false).settles problem (.test asked) = some false :=
      Residual.settled_self problem asked false
    have left := represents_onward represents found rfl (List.mem_cons_of_mem _ List.mem_cons_self)
    rw [shares.onward_eq_nil List.mem_cons_self refused] at left
    exact node?_of_represents_nil left
  · obtain ⟨turn, taken⟩ := exists_turn_of_edge found edge
    have answered : (turn.settles problem first).isSome = true :=
      Turn.settles_of_step? ((Node.step?_of_turn taken).symm.trans carriesOut)
    exact fun other reaches =>
      not_performs_of_without (represents_onward represents found carriesOut taken)
        (Residual.without_onward (Option.isSome_iff_ne_none.mp answered)) reaches

/-- From the node of a residual on, every common step is carried out once at most.
The induction is on the number of common steps: the first one is answered at the
node, which leaves fewer of them, or no arm at all. -/
theorem onceFrom_of_shares (represents : problem.Represents graph.nodes id state)
    (shares : state.Shares common) (member : step ∈ common) : graph.OnceFrom id step := by
  induction lengthEq : common.length using Nat.strongRecOn generalizing common state id with
  | _ length ih =>
  subst lengthEq
  by_cases empty : state = []
  · exact onceFrom_of_without represents (by simp [Residual.Without, empty])
  obtain ⟨first, rest, rfl⟩ := List.exists_cons_of_ne_nil (List.ne_nil_of_mem member)
  have performs := performs_of_shares represents shares empty
  by_cases isFirst : step = first
  · exact isFirst ▸ onceFrom_head represents shares performs
  obtain ⟨node, found, carriesOut⟩ := performs
  obtain ⟨next, turn, taken, passes, others⟩ := Node.exists_passing_turn problem carriesOut
  have behind := represents_onward represents found carriesOut taken
  have once : graph.OnceFrom next step := by
    by_cases answered : turn.settles problem step = some true
    · exact onceFrom_of_without behind (Residual.without_onward (by simp [answered]))
    · have fewer : ((first :: rest).filter (turn.settles problem · != some true)).length <
          (first :: rest).length := by
        rw [List.filter_cons_of_neg (by simp [passes])]
        exact Nat.lt_succ_of_le (List.length_filter_le _ _)
      exact ih _ fewer behind shares.onward
        (List.mem_filter.mpr ⟨member, by simpa using answered⟩) rfl
  refine once.behind found (fun same => isFirst (Option.some.inj (same.symm.trans carriesOut)))
    fun target edge => ?_
  obtain ⟨other, alsoTaken⟩ := exists_turn_of_edge found edge
  refine (others other target alsoTaken).imp_right fun refused last reaches => ?_
  refine not_performs_of_without (represents_onward represents found carriesOut alsoTaken) ?_ reaches
  rw [shares.onward_eq_nil List.mem_cons_self refused]
  exact fun _ isLeft => absurd isLeft List.not_mem_nil

end DecisionGraph

namespace MergeProblem

theorem shares_start (problem : MergeProblem) {common : List Step}
    (begins : ∀ arm, common <+: (problem.checklist arm).steps) : problem.start.Shares common := by
  intro pending member
  obtain ⟨arm, _, rfl⟩ := List.mem_map.mp member
  exact begins arm

end MergeProblem

namespace DecisionGraph

variable {types : TypeOracle} {options : Options} {table : AccessTable}
  {checklists : List Checklist} {graph : DecisionGraph} {first : Step} {rest : List Step}

/-- In the graph that is built for checklists which all begin with the same steps,
each of these is carried out by one node at most, and the first one by a node.
Every test among them fails to the failure leaf. -/
theorem ofChecklists_sharesPrefix
    (built : ofChecklists types options table checklists = .ok graph) (notEmpty : checklists ≠ [])
    (begins : ∀ checklist ∈ checklists, first :: rest <+: checklist.steps) :
    (∃! id, graph.Performs id first) ∧ ∀ step ∈ first :: rest,
      (∀ id other, graph.Performs id step → graph.Performs other step → id = other) ∧
      ∀ id asked onTrue onFalse, step = .test asked →
        graph.node? id = some (.test asked onTrue onFalse) →
          graph.node? onFalse = some .failure := by
  obtain ⟨_, _, _, _, unfolds⟩ := ofChecklists_eq_ok built
  have represents := MergeProblem.represents_of_unfolds _ unfolds
  have shares := MergeProblem.shares_start _ fun arm =>
    begins (MergeProblem.checklist (.mk types options.selection table checklists.toArray) arm)
      (List.getElem_mem _)
  have reached : ∀ {id : NodeId} {step : Step}, graph.Performs id step →
      graph.Reaches graph.root id := by
    rintro id step ⟨node, found, _⟩
    exact reaches_of_built built id (node?_inside found)
  have unique : ∀ step ∈ first :: rest, ∀ id other, graph.Performs id step →
      graph.Performs other step → id = other := by
    intro step member id other performs alsoPerforms
    obtain ⟨holder, once⟩ := onceFrom_of_shares represents shares member
    rw [(once id (reached performs) performs).1, (once other (reached alsoPerforms) alsoPerforms).1]
  have armLeft : (MergeProblem.mk types options.selection table checklists.toArray).start ≠ [] := by
    simpa [MergeProblem.start, List.map_eq_nil_iff] using notEmpty
  have here := performs_of_shares represents shares armLeft
  refine ⟨⟨graph.root, here, fun id performs => unique first List.mem_cons_self _ _ performs here⟩,
    fun step member => ⟨unique step member, ?_⟩⟩
  rintro id asked onTrue onFalse rfl found
  obtain ⟨_, once⟩ := onceFrom_of_shares represents shares member
  have performs : graph.Performs id (.test asked) := ⟨_, found, rfl⟩
  exact (once id (reached performs) performs).2 asked onTrue onFalse found

/-- The member is read once, for both constants that it is compared with. -/
theorem sharesPrefix_memberGraph :
    memberChecklists ≠ [] ∧
      (∀ checklist ∈ memberChecklists,
        [.test ⟨.root, .nonNull⟩, .access ⟨0⟩] <+: checklist.steps) ∧
      (∃! id, memberGraph.Performs id (.test ⟨.root, .nonNull⟩)) ∧
      ∀ id other, memberGraph.Performs id (.access ⟨0⟩) →
        memberGraph.Performs other (.access ⟨0⟩) → id = other := by
  have built : ofChecklists ⟨fun _ _ => .tested, fun _ => true⟩ {} memberTable memberChecklists =
      .ok memberGraph := by
    cbv
  have notEmpty : memberChecklists ≠ [] := by decide
  have begins : ∀ checklist ∈ memberChecklists,
      [.test ⟨.root, .nonNull⟩, .access ⟨0⟩] <+: checklist.steps := by decide
  obtain ⟨once, common⟩ := ofChecklists_sharesPrefix built notEmpty begins
  exact ⟨notEmpty, begins, once, (common (.access ⟨0⟩) (by decide)).1⟩

end DecisionGraph

end MatchCompiler
