import MatchCompiler.Proofs.DecisionGraph.Freshness
import MatchCompiler.Proofs.DecisionGraph.NodeLimit
import MatchCompiler.Proofs.DecisionGraph.Prefix

/-!
# The graph of a single arm

With one arm to take there is one way to go on: a test that fails leaves nothing,
and every other answer leaves the same arm with less to do. The graph is a line
along the checklist, with the failure leaf beside it, however many of the steps
are repeated, implied by others or at odds with them.
-/

set_option autoImplicit false

namespace MatchCompiler

namespace Residual

variable {problem : MergeProblem} {state : Residual problem.checklists.size}

def Lone (state : Residual problem.checklists.size) : Prop :=
  state.length ≤ 1

theorem Lone.eq_singleton {pending : Pending problem.checklists.size} (lone : state.Lone)
    (member : pending ∈ state) : state = [pending] := by
  cases state with
  | nil => contradiction
  | cons first rest =>
      have nothing : rest.length = 0 := Nat.le_zero.mp (Nat.le_of_succ_le_succ lone)
      obtain rfl := List.length_eq_zero_iff.mp nothing
      rw [List.mem_singleton.mp member]

theorem Lone.afterTest_false {asked : Test} (lone : state.Lone)
    (waiting : ∃ pending ∈ state, pending.todo.head? = some (.test asked)) :
    state.afterTest problem asked false = [] := by
  obtain ⟨pending, member, isHead⟩ := waiting
  have shares : state.Shares [.test asked] := by
    intro other isLeft
    rw [lone.eq_singleton member, List.mem_singleton] at isLeft
    rw [isLeft]
    obtain ⟨rest, split⟩ := List.head?_eq_some_iff.mp isHead
    exact ⟨rest, split.symm⟩
  have refused : (Turn.test asked false).settles problem (.test asked) = some false :=
    settled_self problem asked false
  exact shares.onward_eq_nil List.mem_cons_self refused

end Residual

theorem MergeProblem.lasting_lone (problem : MergeProblem) : problem.Lasting Residual.Lone where
  resolve := fun _ state lone => (List.length_filterMap_le _ state).trans lone
  reject := fun _ others _ lone => (Nat.le_succ others.length).trans lone

/-! ## How many nodes there are -/

namespace Arena

variable {count limit : Nat} {arena after : Arena count} {node : Node} {id : NodeId}

/-- The number of nodes, with the failure leaf counted before it is there. -/
def extent (arena : Arena count) : Nat :=
  arena.nodes.size + if .failure ∈ arena.nodes then 0 else 1

@[simp] theorem extent_empty : (empty : Arena count).extent = 1 := by
  simp [extent, empty]

@[simp] theorem extent_finish (state : Residual count) (id : NodeId) (arena : Arena count) :
    (arena.finish state id).extent = arena.extent := rfl

theorem size_le_extent (arena : Arena count) : arena.nodes.size ≤ arena.extent :=
  Nat.le_add_right ..

theorem exists_leaf (room : arena.nodes.size < limit) (few : arena.nodes.size < 2 ^ 32)
    (node : Node) : ∃ id after, arena.leaf limit node = .ok (id, after) := by
  unfold leaf
  split
  · exact ⟨_, _, rfl⟩
  · exact ⟨_, _, push_eq room (by omega)⟩

theorem exists_place (arena : Arena count) (room : arena.nodes.size < limit)
    (few : arena.nodes.size < 2 ^ 32) (state : Residual count) (node : Node) :
    ∃ id after, arena.place limit state node = .ok (id, after) :=
  ⟨_, _, by rw [place, push_eq room (by omega), ok_bind]; rfl⟩

theorem exists_failure (room : arena.extent ≤ limit) (few : arena.extent ≤ 2 ^ 32) :
    ∃ id after, arena.leaf limit .failure = .ok (id, after) := by
  by_cases present : .failure ∈ arena.nodes
  · have found : (arena.nodes.findIdx? (· == Node.failure)).isSome = true :=
      Array.findIdx?_isSome.trans (Array.any_eq_true'.mpr ⟨_, present, beq_self_eq_true _⟩)
    obtain ⟨index, isIndex⟩ := Option.isSome_iff_exists.mp found
    exact ⟨_, _, by rw [leaf, isIndex]⟩
  · rw [extent, if_neg present] at room few
    exact exists_leaf (by omega) (by omega) .failure

theorem extent_push (pushed : arena.push limit node = .ok (id, after)) :
    after.extent ≤ arena.extent + 1 := by
  obtain ⟨_, _, rfl⟩ := push_eq_ok pushed
  unfold extent
  rw [Array.size_push]
  by_cases present : .failure ∈ arena.nodes
  · rw [if_pos present, if_pos (Array.mem_push_of_mem node present)]
  · rw [if_neg present]
    split <;> omega

theorem extent_leaf (leafed : arena.leaf limit node = .ok (id, after)) :
    after.extent ≤ arena.extent + 1 := by
  rcases leaf_eq_ok leafed with ⟨rfl, _⟩ | ⟨_, pushed⟩
  · exact Nat.le_succ _
  · exact extent_push pushed

theorem extent_failure (leafed : arena.leaf limit .failure = .ok (id, after)) :
    after.extent ≤ arena.extent := by
  rcases leaf_eq_ok leafed with ⟨rfl, _⟩ | ⟨isNew, pushed⟩
  · exact Nat.le_refl _
  · have absent : .failure ∉ arena.nodes := by
      intro member
      obtain ⟨index, found⟩ := Array.getElem?_of_mem member
      exact isNew index found
    obtain ⟨_, _, rfl⟩ := push_eq_ok pushed
    simp [extent, absent]

end Arena

namespace MergeProblem

variable {problem : MergeProblem} {limit : Nat} {state : Residual problem.checklists.size}
  {arena after : Arena problem.checklists.size} {id : NodeId}

/-- A node for each step that is left, two for the arm, and the failure leaf. -/
theorem Builds.extent_le (unguarded : ∀ arm, (problem.checklist arm).guard = none)
    (builds : problem.Builds limit state arena id after) (lone : state.Lone) :
    after.extent ≤ arena.extent + (state.weight + state.length) := by
  induction builds with
  | known _ => exact Nat.le_add_right ..
  | fail _ leafed => exact (Arena.extent_failure leafed).trans (Nat.le_add_right ..)
  | take moved _ _ leafed =>
      obtain rfl := move_eq_accept moved
      have added := Arena.extent_leaf leafed
      simp only [Residual.weight_cons, List.length_cons]
      omega
  | bind moved _ _ leafed pushed =>
      obtain rfl := move_eq_accept moved
      have leafAdded := Arena.extent_leaf leafed
      have added := Arena.extent_push pushed
      simp only [Arena.extent_finish, Residual.weight_cons, List.length_cons]
      omega
  | guard _ guarded _ _ _ _ => simp [unguarded] at guarded
  | @access state next made _ _ _ _ _ moved _ pushed ih =>
      have less := problem.weight_of_move_access _ _ _ moved
      obtain ⟨_, rfl⟩ := move_eq_access moved
      have sameLength : (state.afterAccess made).length = state.length := List.length_map _
      have behind := ih (sameLength.trans_le lone)
      have added := Arena.extent_push pushed
      rw [Arena.extent_finish]
      omega
  | @test state _ _ asked _ _ _ _ _ _ _ moved _ _ pushed ihTrue ihFalse =>
      obtain ⟨less, _⟩ := problem.weight_of_move_test _ _ _ _ moved
      obtain ⟨waiting, rfl, rfl⟩ := move_eq_test moved
      have fewer : (state.afterTest problem asked true).length ≤ state.length :=
        List.length_filterMap_le _ state
      have whenTrue := ihTrue (fewer.trans lone)
      rw [lone.afterTest_false waiting] at ihFalse
      have whenFalse := ihFalse (Nat.zero_le 1)
      simp only [Residual.weight_nil, List.length_nil] at whenFalse
      have added := Arena.extent_push pushed
      rw [Arena.extent_finish]
      omega

theorem exists_build (unguarded : ∀ arm, (problem.checklist arm).guard = none) (lone : state.Lone)
    (room : arena.extent + (state.weight + state.length) ≤ limit)
    (few : arena.extent + (state.weight + state.length) ≤ 2 ^ 32) :
    ∃ id after, problem.build limit state arena = .ok (id, after) := by
  induction weightEq : state.weight using Nat.strongRecOn generalizing state arena with
  | _ weight ih =>
  subst weightEq
  have held := arena.size_le_extent
  rw [build_eq_buildBy, buildBy]
  cases arena.finished[state]? with
  | some id => exact ⟨id, arena, rfl⟩
  | none =>
      cases moved : problem.move state with
      | fail =>
          obtain ⟨id, after, leafed⟩ := arena.exists_failure (by omega : arena.extent ≤ limit) (by omega)
          exact ⟨_, _, by rw [leafed, ok_bind]; rfl⟩
      | accept arm others =>
          obtain rfl := move_eq_accept moved
          simp only [Residual.weight_cons, List.length_cons] at room few
          obtain ⟨id, middle, leafed⟩ := arena.exists_leaf (by omega : arena.nodes.size < limit)
            (by omega) (.success arm (problem.checklist arm).label)
          have middleHeld := middle.size_le_extent
          have added := Arena.extent_leaf leafed
          dsimp only
          rw [leafed, ok_bind, unguarded arm]
          dsimp only
          split
          · exact ⟨_, _, rfl⟩
          · exact middle.exists_place (by omega) (by omega) _ _
      | access made next =>
          have less := problem.weight_of_move_access _ _ _ moved
          obtain ⟨_, rfl⟩ := move_eq_access moved
          have sameLength : (state.afterAccess made).length = state.length := List.length_map _
          have nextLone : (state.afterAccess made).Lone := sameLength.trans_le lone
          obtain ⟨id, middle, built⟩ : ∃ id after,
              problem.build limit (state.afterAccess made) arena = .ok (id, after) :=
            ih _ less nextLone (by omega) (by omega) rfl
          have added := (builds_of_build built).extent_le unguarded nextLone
          have middleHeld := middle.size_le_extent
          dsimp only
          rw [built, ok_bind]
          exact middle.exists_place (by omega) (by omega) _ _
      | test asked onTrue onFalse =>
          obtain ⟨trueLess, falseLess⟩ := problem.weight_of_move_test _ _ _ _ moved
          obtain ⟨waiting, rfl, rfl⟩ := move_eq_test moved
          have nothing := lone.afterTest_false waiting
          have fewer : (state.afterTest problem asked true).length ≤ state.length :=
            List.length_filterMap_le _ state
          have trueLone : (state.afterTest problem asked true).Lone := fewer.trans lone
          obtain ⟨yes, middle, whenTrue⟩ : ∃ id after,
              problem.build limit (state.afterTest problem asked true) arena = .ok (id, after) :=
            ih _ trueLess trueLone (by omega) (by omega) rfl
          have added := (builds_of_build whenTrue).extent_le unguarded trueLone
          obtain ⟨no, last, whenFalse⟩ : ∃ id after,
              problem.build limit (state.afterTest problem asked false) middle = .ok (id, after) := by
            refine ih _ falseLess ?_ ?_ ?_ rfl <;> rw [nothing]
            · exact Nat.zero_le 1
            · simp only [Residual.weight_nil, List.length_nil]
              omega
            · simp only [Residual.weight_nil, List.length_nil]
              omega
          have noneAdded := (builds_of_build whenFalse).extent_le unguarded
            (nothing ▸ Nat.zero_le 1)
          rw [nothing] at noneAdded
          simp only [Residual.weight_nil, List.length_nil] at noneAdded
          have lastHeld := last.size_le_extent
          dsimp only
          rw [whenTrue, ok_bind]
          dsimp only
          rw [whenFalse, ok_bind]
          exact last.exists_place (by omega) (by omega) _ _

end MergeProblem

/-! ## Paths -/

namespace Residual

variable {problem : MergeProblem} {state : Residual problem.checklists.size}

theorem Lone.onward (lone : state.Lone) (turn : Turn) : (state.onward problem turn).Lone := by
  cases turn with
  | access made => exact (problem.lasting_lone).afterAccess lone made
  | test asked outcome => exact (problem.lasting_lone).resolve _ state lone
  | bind arm accepted =>
      cases accepted with
      | true => exact Nat.zero_le 1
      | false =>
          rw [Residual.onward, Lone, List.length_tail]
          exact (Nat.sub_le _ 1).trans lone

theorem Lone.along (lone : state.Lone) (turns : List Turn) : (state.along problem turns).Lone := by
  induction turns generalizing state with
  | nil => exact lone
  | cons turn rest ih => exact ih (lone.onward turn)

/-- What was carried out, followed by what is left, comes in the order of `steps`. -/
structure InLine (steps : List Step) (turns : List Turn) (state : Residual problem.checklists.size) :
    Prop where
  done : (turns.filterMap Turn.step?).Sublist steps
  left : ∀ pending ∈ state, (turns.filterMap Turn.step? ++ pending.todo).Sublist steps

variable {steps : List Step} {turns : List Turn} {turn : Turn} {step : Step}

theorem InLine.next (inLine : state.InLine steps turns)
    (waiting : ∃ pending ∈ state, pending.todo.head? = some step) :
    (turns.filterMap Turn.step? ++ [step]).Sublist steps := by
  obtain ⟨pending, member, isHead⟩ := waiting
  obtain ⟨rest, split⟩ := List.head?_eq_some_iff.mp isHead
  have inOrder := inLine.left pending member
  rw [split, List.append_cons] at inOrder
  exact (List.sublist_append_left _ rest).trans inOrder

/-- A turn that carries out what the one arm waits for, if it carries out a step. -/
theorem InLine.onward (inLine : state.InLine steps turns) (lone : state.Lone)
    (waits : ∀ step, turn.step? = some step →
      ∃ pending ∈ state, pending.todo.head? = some step) :
    (state.onward problem turn).InLine steps (turns ++ [turn]) := by
  cases carriesOut : turn.step? with
  | none =>
      have same : (turns ++ [turn]).filterMap Turn.step? = turns.filterMap Turn.step? := by
        simp [carriesOut]
      constructor
      · rw [same]
        exact inLine.done
      · intro pending member
        obtain ⟨before, inState, rfl, _⟩ := exists_of_mem_onward member
        rw [same]
        exact (List.filter_sublist.append_left _).trans (inLine.left before inState)
  | some step =>
      have snoc : (turns ++ [turn]).filterMap Turn.step? = turns.filterMap Turn.step? ++ [step] := by
        simp [carriesOut]
      have waiting := waits step carriesOut
      constructor
      · rw [snoc]
        exact inLine.next waiting
      · intro pending member
        obtain ⟨before, inState, rfl, unrefused⟩ := exists_of_mem_onward member
        obtain ⟨other, alsoInState, isHead⟩ := waiting
        rw [lone.eq_singleton inState, List.mem_singleton] at alsoInState
        subst alsoInState
        obtain ⟨rest, split⟩ := List.head?_eq_some_iff.mp isHead
        -- the turn answers its own step, and did not refuse the arm
        have found : turn.settles problem step = some true := by
          have answers : (turn.settles problem step).isSome = true :=
            Turn.settles_of_step? carriesOut
          obtain ⟨answer, settled⟩ := Option.isSome_iff_exists.mp answers
          cases answer with
          | true => exact settled
          | false => exact absurd settled (unrefused step (List.mem_of_mem_head? isHead))
        have dropped : (other.todo.filter (turn.settles problem · != some true)).Sublist rest := by
          rw [split, List.filter_cons_of_neg (by simp [found])]
          exact List.filter_sublist
        have inOrder := inLine.left other inState
        rw [split, List.append_cons, ← snoc] at inOrder
        exact (dropped.append_left _).trans inOrder

end Residual

namespace DecisionGraph

variable {graph : DecisionGraph} {problem : MergeProblem} {id : NodeId} {turns : List Turn}
  {arm : Fin problem.checklists.size} {steps : List Step}

theorem Path.inLine (represents : problem.Represents graph.nodes graph.root problem.start)
    (single : problem.start = [⟨arm, steps⟩]) (path : graph.Path graph.root turns id) :
    (problem.start.along problem turns).InLine steps turns := by
  induction path with
  | nil =>
      refine ⟨List.nil_sublist _, fun pending member => ?_⟩
      have inStart : pending ∈ problem.start := member
      rw [single, List.mem_singleton] at inStart
      rw [inStart]
      exact List.Sublist.refl _
  | @snoc turns source target node turn path found taken ih =>
      have lone : (problem.start.along problem turns).Lone := by
        apply Residual.Lone.along
        rw [single]
        exact Nat.le_refl 1
      rw [Residual.along, List.foldl_append]
      apply ih.onward lone
      intro step carriesOut
      rcases path.represents represents with here | ⟨_, _, _, _, _, leaf⟩
      · exact waiting_of_represents here found ((Node.step?_of_turn taken).trans carriesOut)
      · obtain rfl := Option.some.inj (found.symm.trans leaf)
        exact absurd taken List.not_mem_nil

theorem Path.stepsTo_sublist (represents : problem.Represents graph.nodes graph.root problem.start)
    (single : problem.start = [⟨arm, steps⟩]) (path : graph.Path graph.root turns id) :
    (graph.stepsTo turns id).Sublist steps := by
  have inLine := path.inLine represents single
  unfold stepsTo
  cases carriesOut : (graph.node? id).bind Node.step? with
  | none =>
      rw [Option.toList_none, List.append_nil]
      exact inLine.done
  | some step =>
      obtain ⟨node, found, asksFor⟩ := Option.bind_eq_some_iff.mp carriesOut
      rcases path.represents represents with here | ⟨_, _, _, _, _, leaf⟩
      · exact inLine.next (waiting_of_represents here found asksFor)
      · obtain rfl := Option.some.inj (found.symm.trans leaf)
        contradiction

/-- A line along some steps: little more than a node for each, and no way but to
fail beside it. -/
structure Straight (graph : DecisionGraph) (steps : List Step) : Prop where
  small : graph.size ≤ steps.length + 3
  refuses : ∀ id asked onTrue onFalse, graph.node? id = some (.test asked onTrue onFalse) →
    graph.node? onFalse = some .failure
  inOrder : ∀ turns id, graph.Path graph.root turns id → (graph.stepsTo turns id).Sublist steps

theorem node?_onFalse (lone : problem.start.Lone)
    (represents : problem.Represents graph.nodes graph.root problem.start)
    (reaches : graph.Reaches graph.root id) {asked : Test} {onTrue onFalse : NodeId}
    (found : graph.node? id = some (.test asked onTrue onFalse)) :
    graph.node? onFalse = some .failure := by
  cases stands_of_reaches problem.lasting_lone (.residual represents lone) reaches with
  | leaf stored _ => cases found.symm.trans stored
  | residual behind lone =>
      cases behind with
      | test stored moved _ belowFalse =>
          cases found.symm.trans stored
          rw [lone.afterTest_false (MergeProblem.move_eq_test moved).1] at belowFalse
          exact node?_of_represents_nil belowFalse
      | fail stored | take stored _ _ | bind stored _ _ | guard stored _ _ _ | access stored _ _ =>
          cases found.symm.trans stored

/-- One checklist without a guard makes a straight graph, and there is one as soon
as there is room for it and numbers for its nodes. -/
theorem exists_straight (types : TypeOracle) (options : Options) (table : AccessTable)
    {checklist : Checklist} (isFirst : checklist.index = 0) (unguarded : checklist.guard = none)
    (fits : checklist.steps.length + 3 ≤ options.nodeLimit)
    (few : checklist.steps.length + 3 ≤ 2 ^ 32) :
    ∃ graph, ofChecklists types options table [checklist] = .ok graph ∧
      graph.Straight checklist.steps := by
  let problem : MergeProblem := ⟨types, options.selection, table, [checklist].toArray⟩
  have single : problem.start = [⟨⟨0, Nat.zero_lt_one⟩, checklist.steps⟩] := rfl
  have lone : problem.start.Lone := Nat.le_refl 1
  have noGuard : ∀ arm, (problem.checklist arm).guard = none := by
    rintro ⟨arm, inside⟩
    obtain rfl : arm = 0 := Nat.lt_one_iff.mp inside
    exact unguarded
  have numbered : misnumbered? [checklist] = none := by
    rw [misnumbered?_eq_none_iff]
    intro position other isOther
    cases position with
    | zero =>
        obtain rfl := Option.some.inj isOther
        exact isFirst
    | succ position => contradiction
  have size : (Arena.empty : Arena problem.checklists.size).extent +
      (problem.start.weight + problem.start.length) = checklist.steps.length + 3 := by
    rw [Arena.extent_empty, single]
    simp only [Residual.weight_cons, Residual.weight_nil, List.length_singleton]
    omega
  obtain ⟨root, arena, made⟩ :=
    MergeProblem.exists_build noGuard lone (size.trans_le fits) (size.trans_le few)
  have small : arena.nodes.size ≤ checklist.steps.length + 3 := by
    have added := (MergeProblem.builds_of_build made).extent_le noGuard lone
    exact arena.size_le_extent.trans (added.trans size.le)
  have built : ofChecklists types options table [checklist] =
      .ok ⟨arena.nodes, root, table, 1⟩ := by
    unfold ofChecklists
    rw [numbered]
    exact congrArg (· >>= _) made
  obtain ⟨_, _, _, _, unfolds⟩ := ofChecklists_eq_ok built
  have represents : problem.Represents arena.nodes root problem.start :=
    MergeProblem.represents_of_unfolds _ unfolds
  refine ⟨_, built, small, ?_, fun turns id path => path.stepsTo_sublist represents single⟩
  intro id asked onTrue onFalse found
  have inside : id.index < arena.nodes.size := (Array.getElem?_eq_some_iff.mp found).1
  exact node?_onFalse lone represents (reaches_of_built built id inside) found

end DecisionGraph

end MatchCompiler
