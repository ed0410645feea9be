import MatchCompiler.Proofs.DecisionGraph.Path
import MatchCompiler.Proofs.Tracking

/-!
# Residuals in the course of a path

What is left at a node depends on the turns that lead to it, whatever the values
of the steps that were carried out. Every turn gives answers: an access that was
made is done, and an outcome settles tests. A step that is left is one that no
turn has given an answer to.
-/

set_option autoImplicit false

namespace MatchCompiler

def Turn.settles (problem : MergeProblem) : Turn → Step → Option Bool
  | .access made, step => if step = .access made then some true else none
  | .test known outcome, step => Residual.settled problem known outcome step
  | .bind .., _ => none

theorem Turn.settles_of_step? {problem : MergeProblem} {turn : Turn} {step : Step}
    (carriesOut : turn.step? = some step) : (turn.settles problem step).isSome = true := by
  cases turn with
  | access made =>
      obtain rfl := Option.some.inj carriesOut
      simp [settles]
  | test asked outcome =>
      obtain rfl := Option.some.inj carriesOut
      simp [settles, Residual.settled_self]
  | bind arm accepted => contradiction

theorem Node.step?_of_turn {node : Node} {turn : Turn} {target : NodeId}
    (taken : (turn, target) ∈ node.turns) : node.step? = turn.step? := by
  cases node with
  | access made next =>
      obtain ⟨rfl, _⟩ := Prod.mk.inj (List.mem_singleton.mp taken)
      rfl
  | test asked onTrue onFalse =>
      simp only [turns, List.mem_cons, Prod.mk.injEq, List.not_mem_nil, or_false] at taken
      rcases taken with ⟨rfl, _⟩ | ⟨rfl, _⟩ <;> rfl
  | bind arm label bindings guard accepted rejected =>
      simp only [turns, List.mem_cons, Prod.mk.injEq, List.mem_map] at taken
      rcases taken with ⟨rfl, _⟩ | ⟨_, _, rfl, _⟩ <;> rfl
  | success arm label | failure => exact absurd taken List.not_mem_nil

namespace Residual

variable {count : Nat} {problem : MergeProblem} {state : Residual count} {pending : Pending count}
  {turn : Turn} {turns : List Turn} {step : Step}

/-- What a turn leaves. Nothing is left for an arm that was taken. -/
def onward (problem : MergeProblem) (state : Residual count) : Turn → Residual count
  | .access made => state.afterAccess made
  | .test asked outcome => state.afterTest problem asked outcome
  | .bind _ true => []
  | .bind _ false => state.tail

def along (problem : MergeProblem) (state : Residual count) (turns : List Turn) : Residual count :=
  turns.foldl (onward problem) state

theorem afterAccess_eq_filterMap (problem : MergeProblem) (state : Residual count)
    (made : Access) : state.afterAccess made =
      state.filterMap (Pending.resolve ((Turn.access made).settles problem)) := by
  have answers : ∀ step : Step, ((Turn.access made).settles problem step == some false) = false ∧
      ((Turn.access made).settles problem step != some true) = (step != .access made) := by
    intro step
    by_cases same : step = .access made
    · simp [Turn.settles, same]
    · rw [Turn.settles, if_neg same, bne_iff_ne.mpr same]
      exact ⟨rfl, rfl⟩
  unfold afterAccess
  rw [← List.filterMap_eq_map]
  congr 1
  funext pending
  simp [Pending.resolve, answers]

theorem exists_of_mem_onward (member : pending ∈ state.onward problem turn) :
    ∃ before ∈ state,
      pending = { before with todo := before.todo.filter (turn.settles problem · != some true) } ∧
        ∀ step ∈ before.todo, turn.settles problem step ≠ some false := by
  cases turn with
  | access made =>
      rw [onward, afterAccess_eq_filterMap problem] at member
      obtain ⟨before, inState, resolved⟩ := List.mem_filterMap.mp member
      exact ⟨before, inState, Pending.resolve_eq_some resolved⟩
  | test asked outcome => exact exists_of_mem_afterTest member
  | bind arm accepted =>
      cases accepted with
      | true => exact absurd member List.not_mem_nil
      | false =>
          have keepsAll : pending.todo.filter (fun _ => none != some true) = pending.todo :=
            List.filter_true _
          exact ⟨pending, List.mem_of_mem_tail member, congrArg (Pending.mk _) keepsAll.symm,
            by simp [Turn.settles]⟩

theorem settles_of_mem_onward (member : pending ∈ state.onward problem turn)
    (inTodo : step ∈ pending.todo) : turn.settles problem step = none := by
  obtain ⟨before, _, rfl, unrefused⟩ := exists_of_mem_onward member
  obtain ⟨inBefore, undone⟩ := List.mem_filter.mp inTodo
  cases settled : turn.settles problem step with
  | none => rfl
  | some answer =>
      cases answer with
      | true => simp [settled] at undone
      | false => exact absurd settled (unrefused step inBefore)

/-- An arm that is left has its steps in their order, but for those that some
turn has found to be done. -/
theorem exists_of_mem_along (member : pending ∈ state.along problem turns) :
    ∃ before ∈ state, pending.arm = before.arm ∧ pending.todo.Sublist before.todo ∧
      ∀ step ∈ before.todo, step ∉ pending.todo →
        ∃ turn ∈ turns, turn.settles problem step = some true := by
  induction turns generalizing state with
  | nil => exact ⟨pending, member, rfl, List.Sublist.refl _, by simp +contextual⟩
  | cons turn rest ih =>
      obtain ⟨middle, inOnward, sameArm, sublist, done⟩ := ih member
      obtain ⟨before, inState, rfl, _⟩ := exists_of_mem_onward inOnward
      refine ⟨before, inState, sameArm, sublist.trans List.filter_sublist, ?_⟩
      intro step inBefore gone
      by_cases now : turn.settles problem step = some true
      · exact ⟨turn, List.mem_cons_self, now⟩
      · obtain ⟨later, inRest, settled⟩ :=
          done step (List.mem_filter.mpr ⟨inBefore, by simpa using now⟩) gone
        exact ⟨later, List.mem_cons_of_mem _ inRest, settled⟩

theorem settles_of_mem_along (member : pending ∈ state.along problem turns)
    (inTodo : step ∈ pending.todo) : ∀ turn ∈ turns, turn.settles problem step = none := by
  induction turns generalizing state with
  | nil => simp
  | cons turn rest ih =>
      intro other inTurns
      rcases List.mem_cons.mp inTurns with rfl | inRest
      · have inAlong : pending ∈ (state.onward problem other).along problem rest := member
        obtain ⟨middle, inOnward, _, sublist, _⟩ := exists_of_mem_along inAlong
        exact settles_of_mem_onward inOnward (sublist.subset inTodo)
      · exact ih member other inRest

end Residual

namespace DecisionGraph

variable {graph : DecisionGraph} {problem : MergeProblem} {id target : NodeId} {node : Node}
  {turn : Turn} {turns : List Turn} {state : Residual problem.checklists.size}

theorem represents_of_turn (represents : problem.Represents graph.nodes id state)
    (found : graph.node? id = some node) (taken : (turn, target) ∈ node.turns) :
    problem.Represents graph.nodes target (state.onward problem turn) ∨
      ∃ (arm : Fin problem.checklists.size) (others : Residual problem.checklists.size),
        turn = .bind arm true ∧ state = ⟨arm, []⟩ :: others ∧
        graph.node? target = some (.success arm (problem.checklist arm).label) := by
  cases represents with
  | fail stored | take stored _ _ =>
      obtain rfl := Option.some.inj (found.symm.trans stored)
      exact absurd taken List.not_mem_nil
  | bind stored _ leaf =>
      obtain rfl := Option.some.inj (found.symm.trans stored)
      obtain ⟨rfl, rfl⟩ := Prod.mk.inj (List.mem_singleton.mp taken)
      exact Or.inr ⟨_, _, rfl, rfl, leaf⟩
  | guard stored _ leaf below =>
      obtain rfl := Option.some.inj (found.symm.trans stored)
      rcases List.mem_cons.mp taken with accepted | rejected
      · obtain ⟨rfl, rfl⟩ := Prod.mk.inj accepted
        exact Or.inr ⟨_, _, rfl, rfl, leaf⟩
      · obtain ⟨rfl, rfl⟩ := Prod.mk.inj (List.mem_singleton.mp rejected)
        exact Or.inl below
  | access stored _ below =>
      obtain rfl := Option.some.inj (found.symm.trans stored)
      obtain ⟨rfl, rfl⟩ := Prod.mk.inj (List.mem_singleton.mp taken)
      exact Or.inl below
  | test stored _ belowTrue belowFalse =>
      obtain rfl := Option.some.inj (found.symm.trans stored)
      rcases List.mem_cons.mp taken with isTrue | isFalse
      · obtain ⟨rfl, rfl⟩ := Prod.mk.inj isTrue
        exact Or.inl belowTrue
      · obtain ⟨rfl, rfl⟩ := Prod.mk.inj (List.mem_singleton.mp isFalse)
        exact Or.inl belowFalse

/-- The end of a path represents what its turns leave, or it is the leaf of the
arm that the last turn took. -/
theorem Path.represents (represents : problem.Represents graph.nodes graph.root problem.start)
    (path : graph.Path graph.root turns id) :
    problem.Represents graph.nodes id (problem.start.along problem turns) ∨
      ∃ (front : List Turn) (arm : Fin problem.checklists.size)
        (others : Residual problem.checklists.size),
        turns = front ++ [.bind arm true] ∧
        problem.start.along problem front = ⟨arm, []⟩ :: others ∧
        graph.node? id = some (.success arm (problem.checklist arm).label) := by
  induction path with
  | nil => exact Or.inl represents
  | @snoc turns source target node turn _ found taken ih =>
      rcases ih with here | ⟨_, _, _, _, _, leaf⟩
      · rcases represents_of_turn here found taken with onward | ⟨arm, others, rfl, isState, leaf⟩
        · refine Or.inl ?_
          unfold Residual.along at onward ⊢
          rw [List.foldl_append]
          exact onward
        · exact Or.inr ⟨turns, arm, others, rfl, isState, leaf⟩
      · obtain rfl := Option.some.inj (found.symm.trans leaf)
        exact absurd taken List.not_mem_nil

theorem represents_or_leaf
    (represents : problem.Represents graph.nodes graph.root problem.start)
    (reaches : graph.Reaches graph.root id) :
    (∃ state, problem.Represents graph.nodes id state) ∨
      ∃ arm label, graph.node? id = some (.success arm label) := by
  obtain ⟨turns, path⟩ := exists_path_of_reaches reaches
  rcases path.represents represents with here | ⟨_, arm, _, _, _, leaf⟩
  · exact Or.inl ⟨_, here⟩
  · exact Or.inr ⟨arm, _, leaf⟩

theorem Path.exists_of_arm? (represents : problem.Represents graph.nodes graph.root problem.start)
    (path : graph.Path graph.root turns id) (found : graph.node? id = some node) {arm : Nat}
    (takes : node.arm? = some arm) :
    ∃ (front back : List Turn) (own : Fin problem.checklists.size)
      (others : Residual problem.checklists.size), turns = front ++ back ∧
      problem.start.along problem front = ⟨own, []⟩ :: others ∧ own.val = arm := by
  rcases path.represents represents with here | ⟨front, own, others, rfl, isState, leaf⟩
  · generalize isState : problem.start.along problem turns = state at here
    refine ⟨turns, [], ?_⟩
    cases here with
    | take stored _ _ | bind stored _ _ | guard stored _ _ _ =>
        obtain rfl := Option.some.inj (found.symm.trans stored)
        exact ⟨_, _, (List.append_nil _).symm, isState, Option.some.inj takes⟩
    | fail stored | access stored _ _ | test stored _ _ _ =>
        obtain rfl := Option.some.inj (found.symm.trans stored)
        contradiction
  · obtain rfl := Option.some.inj (found.symm.trans leaf)
    exact ⟨front, _, own, others, rfl, isState, Option.some.inj takes⟩

theorem Path.settles (represents : problem.Represents graph.nodes graph.root problem.start)
    (path : graph.Path graph.root turns id) (found : graph.node? id = some node) {step : Step}
    (carriesOut : node.step? = some step) : ∀ turn ∈ turns, turn.settles problem step = none := by
  rcases path.represents represents with here | ⟨_, _, _, _, _, leaf⟩
  · obtain ⟨pending, member, isHead⟩ := waiting_of_represents here found carriesOut
    exact Residual.settles_of_mem_along member (List.mem_of_mem_head? isHead)
  · obtain rfl := Option.some.inj (found.symm.trans leaf)
    contradiction

end DecisionGraph

end MatchCompiler
