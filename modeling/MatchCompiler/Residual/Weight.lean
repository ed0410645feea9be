import MatchCompiler.Residual

/-!
# Moves make residuals smaller

Whatever is done next, the number of steps and arms that are left falls: an
access that was made is not made again, and a test that was asked is settled in
every arm that waits for it.
-/

set_option autoImplicit false

namespace MatchCompiler

namespace Selection

theorem choose_mem (selection : Selection) (first : Step) (heads : List Step)
    (member : first ∈ heads) : selection.choose first heads ∈ heads := by
  cases selection with
  | firstArm => exact member
  | mostShared =>
      have kept : ∀ (steps : List Step) (best : Step), best ∈ heads → (∀ s ∈ steps, s ∈ heads) →
          steps.foldl (fun best step =>
            if heads.count best < heads.count step then step else best) best ∈ heads := by
        intro steps
        induction steps with
        | nil => intro best bestMember _; exact bestMember
        | cons step rest ih =>
            intro best bestMember allMembers
            refine ih _ ?_ fun s sMember => allMembers s (List.mem_cons_of_mem _ sMember)
            dsimp only
            split
            · exact allMembers step List.mem_cons_self
            · exact bestMember
      exact kept heads first member fun _ h => h

end Selection

namespace Predicate

theorem implied_self (types : TypeOracle) (nonNullable : Bool) (known : Predicate)
    (outcome : Bool) : implied types nonNullable known outcome known = some outcome := by
  simp [implied]

end Predicate

theorem Pending.resolve_eq_some {count : Nat} {answer : Step → Option Bool}
    {pending left : Pending count} (resolved : pending.resolve answer = some left) :
    left = { pending with todo := pending.todo.filter (answer · != some true) } ∧
      ∀ step ∈ pending.todo, answer step ≠ some false := by
  unfold resolve at resolved
  split at resolved
  · contradiction
  · rename_i unrefused
    refine ⟨(Option.some.inj resolved).symm, fun step inTodo refused => unrefused ?_⟩
    exact List.any_eq_true.mpr ⟨step, inTodo, by simp [refused]⟩

namespace Residual

variable {count : Nat}

theorem exists_of_mem_afterTest {problem : MergeProblem} {test : Test} {outcome : Bool}
    {state : Residual count} {pending : Pending count}
    (member : pending ∈ state.afterTest problem test outcome) :
    ∃ before ∈ state,
      pending = { before with todo := before.todo.filter (settled problem test outcome · != some true) } ∧
        ∀ step ∈ before.todo, settled problem test outcome step ≠ some false := by
  obtain ⟨before, inState, resolved⟩ := List.mem_filterMap.mp member
  exact ⟨before, inState, Pending.resolve_eq_some resolved⟩

@[simp] theorem weight_nil : weight ([] : Residual count) = 0 := rfl

@[simp] theorem weight_cons (pending : Pending count) (rest : Residual count) :
    weight (pending :: rest) = pending.todo.length + 1 + weight rest := rfl

theorem exists_of_mem_heads {state : Residual count} {step : Step}
    (member : step ∈ state.heads) : ∃ pending ∈ state, pending.todo.head? = some step :=
  List.mem_filterMap.mp member

theorem weight_afterAccess_le (state : Residual count) (access : Access) :
    weight (state.afterAccess access) ≤ weight state := by
  induction state with
  | nil => exact Nat.le_refl _
  | cons pending rest ih =>
      have shorter := List.length_filter_le (· != Step.access access) pending.todo
      simp only [afterAccess, List.map_cons, weight_cons] at ih ⊢
      omega

theorem weight_afterAccess_lt (state : Residual count) (access : Access)
    (pendingAccess : ∃ pending ∈ state, Step.access access ∈ pending.todo) :
    weight (state.afterAccess access) < weight state := by
  induction state with
  | nil =>
      obtain ⟨pending, inState, _⟩ := pendingAccess
      exact absurd inState (List.not_mem_nil)
  | cons pending rest ih =>
      have restLe := weight_afterAccess_le rest access
      have shorter := List.length_filter_le (· != Step.access access) pending.todo
      obtain ⟨chosen, inState, inTodo⟩ := pendingAccess
      rcases List.mem_cons.mp inState with rfl | inRest
      · have less : (chosen.todo.filter (· != Step.access access)).length < chosen.todo.length :=
          List.length_filter_lt_length_iff_exists.mpr ⟨_, inTodo, by simp⟩
        simp only [afterAccess, List.map_cons, weight_cons] at restLe ⊢
        omega
      · have less := ih ⟨chosen, inRest, inTodo⟩
        simp only [afterAccess, List.map_cons, weight_cons] at less ⊢
        omega

theorem length_resolve_le (answer : Step → Option Bool) (pending left : Pending count)
    (resolved : pending.resolve answer = some left) : left.todo.length ≤ pending.todo.length := by
  obtain ⟨rfl, _⟩ := Pending.resolve_eq_some resolved
  exact List.length_filter_le _ _

theorem weight_filterMap_resolve_le (answer : Step → Option Bool) (state : Residual count) :
    weight (state.filterMap (Pending.resolve answer)) ≤ weight state := by
  induction state with
  | nil => exact Nat.le_refl _
  | cons pending rest ih =>
      rw [List.filterMap_cons]
      split
      · simp only [weight_cons]
        omega
      · rename_i left resolved
        have shorter := length_resolve_le answer pending left resolved
        simp only [weight_cons]
        omega

/-- An answered step is gone, with its arm if the answer is no. -/
theorem weight_filterMap_resolve_lt (answer : Step → Option Bool) (state : Residual count)
    (step : Step) (answered : (answer step).isSome = true)
    (pendingStep : ∃ pending ∈ state, step ∈ pending.todo) :
    weight (state.filterMap (Pending.resolve answer)) < weight state := by
  induction state with
  | nil =>
      obtain ⟨pending, inState, _⟩ := pendingStep
      exact absurd inState (List.not_mem_nil)
  | cons pending rest ih =>
      have restLe := weight_filterMap_resolve_le answer rest
      rw [List.filterMap_cons]
      split
      · simp only [weight_cons]
        omega
      · rename_i left resolved
        have shorter := length_resolve_le answer pending left resolved
        obtain ⟨chosen, inState, inTodo⟩ := pendingStep
        rcases List.mem_cons.mp inState with rfl | inRest
        · obtain ⟨rfl, unrefused⟩ := Pending.resolve_eq_some resolved
          have yes : answer step = some true := by
            obtain ⟨outcome, isOutcome⟩ := Option.isSome_iff_exists.mp answered
            cases outcome with
            | true => exact isOutcome
            | false => exact absurd isOutcome (unrefused step inTodo)
          have less : (chosen.todo.filter (answer · != some true)).length < chosen.todo.length :=
            List.length_filter_lt_length_iff_exists.mpr ⟨step, inTodo, by simp [yes]⟩
          simp only [weight_cons]
          omega
        · have less := ih ⟨chosen, inRest, inTodo⟩
          simp only [weight_cons]
          omega

theorem settled_self (problem : MergeProblem) (test : Test) (outcome : Bool) :
    settled problem test outcome (.test test) = some outcome := by
  simp [settled, Predicate.implied_self]

theorem weight_afterTest_lt (problem : MergeProblem) (test : Test) (outcome : Bool)
    (state : Residual count) (pendingTest : ∃ pending ∈ state, Step.test test ∈ pending.todo) :
    weight (state.afterTest problem test outcome) < weight state :=
  weight_filterMap_resolve_lt _ state (.test test) (by simp [settled_self]) pendingTest

end Residual

namespace MergeProblem

variable {count : Nat} {problem : MergeProblem}

theorem move_eq_fail {state : Residual count} (moved : problem.move state = .fail) :
    state = [] := by
  unfold move at moved
  split at moved
  · rfl
  · contradiction
  · split at moved <;> contradiction

theorem move_eq_accept {state others : Residual count} {arm : Fin count}
    (moved : problem.move state = .accept arm others) : state = ⟨arm, []⟩ :: others := by
  unfold move at moved
  split at moved
  · contradiction
  · cases moved
    rfl
  · split at moved <;> contradiction

theorem move_eq_access {state next : Residual count} {made : Access}
    (moved : problem.move state = .access made next) :
    (∃ pending ∈ state, pending.todo.head? = some (.access made)) ∧
      next = state.afterAccess made := by
  unfold move at moved
  split at moved
  · contradiction
  · contradiction
  · rename_i arm first todo others
    have chosen := problem.selection.choose_mem first
      (Residual.heads (⟨arm, first :: todo⟩ :: others)) (by simp [Residual.heads])
    split at moved
    · rename_i step isAccess
      cases moved
      rw [isAccess] at chosen
      exact ⟨Residual.exists_of_mem_heads chosen, rfl⟩
    · contradiction

theorem move_eq_test {state onTrue onFalse : Residual count} {asked : Test}
    (moved : problem.move state = .test asked onTrue onFalse) :
    (∃ pending ∈ state, pending.todo.head? = some (.test asked)) ∧
      onTrue = state.afterTest problem asked true ∧
      onFalse = state.afterTest problem asked false := by
  unfold move at moved
  split at moved
  · contradiction
  · contradiction
  · rename_i arm first todo others
    have chosen := problem.selection.choose_mem first
      (Residual.heads (⟨arm, first :: todo⟩ :: others)) (by simp [Residual.heads])
    split at moved
    · contradiction
    · rename_i step isTest
      cases moved
      rw [isTest] at chosen
      exact ⟨Residual.exists_of_mem_heads chosen, rfl, rfl⟩

theorem weight_of_move_accept (problem : MergeProblem) (state others : Residual count)
    (arm : Fin count) (moved : problem.move state = .accept arm others) :
    others.weight < state.weight := by
  rw [move_eq_accept moved, Residual.weight_cons]
  omega

theorem weight_of_move_access (problem : MergeProblem) (state next : Residual count)
    (access : Access) (moved : problem.move state = .access access next) :
    next.weight < state.weight := by
  obtain ⟨⟨pending, inState, isHead⟩, rfl⟩ := move_eq_access moved
  exact Residual.weight_afterAccess_lt _ _ ⟨pending, inState, List.mem_of_mem_head? isHead⟩

theorem weight_of_move_test (problem : MergeProblem) (state onTrue onFalse : Residual count)
    (test : Test) (moved : problem.move state = .test test onTrue onFalse) :
    onTrue.weight < state.weight ∧ onFalse.weight < state.weight := by
  obtain ⟨⟨pending, inState, isHead⟩, rfl, rfl⟩ := move_eq_test moved
  have waiting : ∃ pending ∈ state, Step.test test ∈ pending.todo :=
    ⟨pending, inState, List.mem_of_mem_head? isHead⟩
  exact ⟨Residual.weight_afterTest_lt _ _ _ _ waiting, Residual.weight_afterTest_lt _ _ _ _ waiting⟩

end MergeProblem

end MatchCompiler
