import MatchCompiler.Proofs.Checklist
import MatchCompiler.Proofs.DecisionGraph.Construction
import MatchCompiler.Proofs.FirstMatch
import MatchCompiler.Proofs.Implication

/-!
# Residuals in the course of a match

What is left out of a residual needs no more attention: a step that is gone is
done, and an arm that is gone does not pass. `Represents` says which nodes carry
out the moves of a residual.
-/

set_option autoImplicit false

namespace MatchCompiler

/-- Steps still to do, out of all of them; the others are done, in some sense. -/
def Step.LeftOf (done : Step → Prop) (steps todo : List Step) : Prop :=
  ∃ keep : Step → Bool, todo = steps.filter keep ∧ ∀ step ∈ steps, keep step = false → done step

namespace Step.LeftOf

variable {done also : Step → Prop} {steps todo : List Step}

theorem all_of_none (steps : List Step) : Step.LeftOf done steps steps :=
  ⟨fun _ => true, (List.filter_true steps).symm, by simp⟩

theorem imp (left : Step.LeftOf done steps todo) (weaken : ∀ step, done step → also step) :
    Step.LeftOf also steps todo := by
  obtain ⟨keep, isTodo, others⟩ := left
  exact ⟨keep, isTodo, fun step member dropped => weaken step (others step member dropped)⟩

theorem subset (left : Step.LeftOf done steps todo) : todo ⊆ steps := by
  obtain ⟨keep, rfl, _⟩ := left
  exact List.filter_subset_self _

theorem filter (left : Step.LeftOf done steps todo) (keep : Step → Bool)
    (now : ∀ step ∈ todo, keep step = false → done step) :
    Step.LeftOf done steps (todo.filter keep) := by
  obtain ⟨kept, rfl, others⟩ := left
  refine ⟨fun step => keep step && kept step, List.filter_filter .., ?_⟩
  intro step member dropped
  cases isKept : kept step with
  | false => exact others step member isKept
  | true =>
      simp only [isKept, Bool.and_true] at dropped
      exact now step (List.mem_filter.mpr ⟨member, isKept⟩) dropped

theorem head {first : Step} (left : Step.LeftOf done steps todo)
    (isHead : todo.head? = some first) :
    ∃ front back, steps = front ++ first :: back ∧ ∀ step ∈ front, done step := by
  obtain ⟨keep, rfl, others⟩ := left
  obtain ⟨rest, kept⟩ := List.head?_eq_some_iff.mp isHead
  obtain ⟨front, back, rfl, dropped, _, _⟩ := List.filter_eq_cons_iff.mp kept
  exact ⟨front, back, rfl, fun step member => others step (List.mem_append_left _ member)
    (by simpa using dropped step member)⟩

theorem all_done (left : Step.LeftOf done steps []) : ∀ step ∈ steps, done step := by
  obtain ⟨keep, isTodo, others⟩ := left
  intro step member
  apply others step member
  simpa using List.filter_eq_nil_iff.mp isTodo.symm step member

end Step.LeftOf

abbrev Step.Remain (typing : Typing) (table : AccessTable) (slots : Slots Value)
    (steps todo : List Step) : Prop :=
  Step.LeftOf (Step.Done typing table slots) steps todo

namespace MergeProblem

variable {problem : MergeProblem}

/-- The nodes from `id` on carry out the moves from a residual on. -/
inductive Represents (problem : MergeProblem) (nodes : Array Node) :
    NodeId → Residual problem.checklists.size → Prop
  | fail {id : NodeId} (found : nodes[id.index]? = some .failure) : Represents problem nodes id []
  | take {id : NodeId} {arm : Fin problem.checklists.size}
      {others : Residual problem.checklists.size}
      (found : nodes[id.index]? = some (.success arm (problem.checklist arm).label))
      (unguarded : (problem.checklist arm).guard = none)
      (unbound : (problem.checklist arm).bindings = []) :
      Represents problem nodes id (⟨arm, []⟩ :: others)
  | bind {id success : NodeId} {arm : Fin problem.checklists.size}
      {others : Residual problem.checklists.size}
      (found : nodes[id.index]? = some (.bind arm (problem.checklist arm).label
        (problem.checklist arm).bindings none success none))
      (unguarded : (problem.checklist arm).guard = none)
      (leaf : nodes[success.index]? = some (.success arm (problem.checklist arm).label)) :
      Represents problem nodes id (⟨arm, []⟩ :: others)
  | guard {id success rejected : NodeId} {arm : Fin problem.checklists.size}
      {others : Residual problem.checklists.size} {guard : Guard}
      (found : nodes[id.index]? = some (.bind arm (problem.checklist arm).label
        (problem.checklist arm).bindings (some guard) success (some rejected)))
      (guarded : (problem.checklist arm).guard = some guard)
      (leaf : nodes[success.index]? = some (.success arm (problem.checklist arm).label))
      (below : Represents problem nodes rejected others) :
      Represents problem nodes id (⟨arm, []⟩ :: others)
  | access {id next : NodeId} {state : Residual problem.checklists.size} {made : Access}
      (found : nodes[id.index]? = some (.access made next))
      (moved : problem.move state = .access made (state.afterAccess made))
      (below : Represents problem nodes next (state.afterAccess made)) :
      Represents problem nodes id state
  | test {id onTrue onFalse : NodeId} {state : Residual problem.checklists.size} {asked : Test}
      (found : nodes[id.index]? = some (.test asked onTrue onFalse))
      (moved : problem.move state = .test asked (state.afterTest problem asked true)
        (state.afterTest problem asked false))
      (belowTrue : Represents problem nodes onTrue (state.afterTest problem asked true))
      (belowFalse : Represents problem nodes onFalse (state.afterTest problem asked false)) :
      Represents problem nodes id state

theorem Represents.inside {nodes : Array Node} {id : NodeId}
    {state : Residual problem.checklists.size} (represents : problem.Represents nodes id state) :
    id.index < nodes.size := by
  cases represents with
  | fail found | take found _ _ | bind found _ _ | guard found _ _ _ | access found _ _
  | test found _ _ _ => exact (Array.getElem?_eq_some_iff.mp found).1

theorem leaf_of_unfolds {nodes : Array Node} {id : NodeId} {arm : Nat} {label : Label}
    (unfolds : Unfolds nodes id (.success arm label)) :
    nodes[id.index]? = some (.success arm label) := by
  cases unfolds with
  | success _ _ _ found => exact found

theorem represents_of_unfolds {nodes : Array Node} (state : Residual problem.checklists.size) :
    ∀ {id : NodeId}, Unfolds nodes id (problem.tree state) → problem.Represents nodes id state := by
  induction weightEq : state.weight using Nat.strongRecOn generalizing state with
  | _ weight ih =>
  intro id unfolds
  subst weightEq
  cases moved : problem.move state with
  | fail =>
      rw [tree_of_fail moved] at unfolds
      obtain rfl := move_eq_fail moved
      cases unfolds with
      | failure _ found => exact .fail found
  | accept arm others =>
      rw [tree_of_accept moved] at unfolds
      have less := problem.weight_of_move_accept _ _ _ moved
      obtain rfl := move_eq_accept moved
      cases guarded : (problem.checklist arm).guard with
      | none =>
          simp only [guarded] at unfolds
          split at unfolds
          · rename_i unbound
            exact .take (leaf_of_unfolds unfolds) guarded (List.isEmpty_iff.mp unbound)
          · cases unfolds with
            | bind _ _ _ _ _ _ _ found leaf => exact .bind found guarded (leaf_of_unfolds leaf)
      | some guard =>
          simp only [guarded] at unfolds
          cases unfolds with
          | guarded _ _ _ _ _ _ _ _ _ found leaf below =>
              exact .guard found guarded (leaf_of_unfolds leaf) (ih _ less others rfl below)
  | access made next =>
      rw [tree_of_access moved] at unfolds
      have less := problem.weight_of_move_access _ _ _ moved
      obtain ⟨_, rfl⟩ := move_eq_access moved
      cases unfolds with
      | access _ _ _ _ found below => exact .access found moved (ih _ less _ rfl below)
  | test asked onTrue onFalse =>
      rw [tree_of_test moved] at unfolds
      obtain ⟨trueLess, falseLess⟩ := problem.weight_of_move_test _ _ _ _ moved
      obtain ⟨_, rfl, rfl⟩ := move_eq_test moved
      cases unfolds with
      | test _ _ _ _ _ _ found belowTrue belowFalse =>
          exact .test found moved (ih _ trueLess _ rfl belowTrue) (ih _ falseLess _ rfl belowFalse)

theorem exists_picked_of_move {state next : Residual problem.checklists.size} {made : Access}
    (moved : problem.move state = .access made next) :
    ∃ pending, problem.selection.Picks state pending ∧
      pending.todo.head? = some (.access made) := by
  cases selection : problem.selection with
  | mostShared => exact (move_eq_access moved).1
  | firstArm =>
      unfold move at moved
      split at moved
      · contradiction
      · contradiction
      · rename_i arm first todo others
        rw [selection] at moved
        split at moved
        · rename_i step isAccess
          cases moved
          exact ⟨_, rfl, congrArg some isAccess⟩
        · contradiction

/-- The arms of a residual, as the alternatives that they are. -/
def entries (problem : MergeProblem) (typing : Typing) (input : Value)
    (state : Residual problem.checklists.size) : List (Candidate × Nat) :=
  state.map fun pending =>
    ((problem.checklist pending.arm).candidate typing problem.table input, pending.arm)

/-- A match whose slots and variables are in step with a residual. -/
structure Tracks (problem : MergeProblem) (typing : Typing) (input : Value)
    (state : Residual problem.checklists.size) (progress : Progress) : Prop where
  sound : progress.slots.Sound problem.table input
  unbound : progress.bound = []
  remain : ∀ pending ∈ state, Step.Remain typing problem.table progress.slots
    (problem.checklist pending.arm).steps pending.todo

variable {typing : Typing} {input : Value} {state others : Residual problem.checklists.size}
  {progress : Progress}

theorem tracks_start (rooted : problem.table.Rooted) :
    problem.Tracks typing input problem.start (.start problem.table input) where
  sound := Slots.sound_ofInput rooted input
  unbound := rfl
  remain := by
    intro pending member
    obtain ⟨arm, _, rfl⟩ := List.mem_map.mp member
    exact .all_of_none _

theorem entries_start : problem.entries typing input problem.start =
    (problem.checklists.toList.map (Checklist.candidate typing problem.table input)).zipIdx := by
  unfold entries start
  apply List.ext_getElem
  · simp
  · intro index inside inside'
    simp [checklist]

theorem Tracks.rest {pending : Pending problem.checklists.size}
    (tracks : problem.Tracks typing input (pending :: others) progress) (calls : List GuardCall) :
    problem.Tracks typing input others ⟨progress.slots, [], calls⟩ where
  sound := tracks.sound
  unbound := rfl
  remain := fun other member => tracks.remain other (List.mem_cons_of_mem _ member)

theorem Tracks.afterAccess (rooted : problem.table.Rooted) {made : Access} {slots : Slots Value}
    (tracks : problem.Tracks typing input state progress)
    (performed : progress.slots.perform problem.table made = .ok slots) :
    problem.Tracks typing input (state.afterAccess made) { progress with slots } where
  sound := tracks.sound.perform rooted performed
  unbound := tracks.unbound
  remain := by
    intro pending member
    obtain ⟨before, inState, rfl⟩ := List.mem_map.mp member
    have below := tracks.sound.below_of_perform rooted performed
    have remain := (tracks.remain before inState).imp fun step done => Step.Done.mono done below
    refine remain.filter _ fun step _ dropped => ?_
    obtain rfl : step = .access made := by simpa using dropped
    exact Step.done_of_perform tracks.sound rooted performed

theorem entries_afterAccess (made : Access) :
    problem.entries typing input (state.afterAccess made) = problem.entries typing input state := by
  simp [entries, Residual.afterAccess]

theorem settled_eq_some {known : Test} {outcome answer : Bool} {step : Step}
    (settled : Residual.settled problem known outcome step = some answer) :
    ∃ asked, step = .test asked ∧ asked.subject = known.subject ∧
      known.predicate.implied problem.types
        (!problem.types.canBeNull (problem.table.typeOf known.subject)) outcome asked.predicate =
          some answer := by
  cases step with
  | access made => simp [Residual.settled] at settled
  | test asked =>
      simp only [Residual.settled] at settled
      split at settled
      · rename_i sameSubject
        exact ⟨asked, rfl, sameSubject, settled⟩
      · contradiction

/-- A step that an outcome settles is a test about the same value, and the
answer is right. -/
theorem holds_of_settled (sound : problem.types.SoundFor typing) {known : Test} {outcome answer : Bool}
    {value : Value} {step : Step}
    (suits : known.Suits problem.types problem.table value)
    (came : known.predicate.holds typing value = outcome)
    (settled : Residual.settled problem known outcome step = some answer) :
    ∃ asked, step = .test asked ∧ asked.subject = known.subject ∧
      asked.predicate.holds typing value = answer := by
  obtain ⟨asked, isTest, sameSubject, implied⟩ := settled_eq_some settled
  refine ⟨asked, isTest, sameSubject, ?_⟩
  refine Predicate.implied_sound sound (fun nonNullable b _ isKnown _ => ?_) came implied
  exact suits (by simpa using nonNullable) b isKnown

variable {asked : Test} {value : Value}

theorem Tracks.afterTest (sound : problem.types.SoundFor typing)
    (tracks : problem.Tracks typing input state progress)
    (found : progress.slots.get? asked.subject = some value)
    (suits : asked.Suits problem.types problem.table value)
    {outcome : Bool} (came : asked.predicate.holds typing value = outcome) :
    problem.Tracks typing input (state.afterTest problem asked outcome) progress where
  sound := tracks.sound
  unbound := tracks.unbound
  remain := by
    intro pending member
    obtain ⟨before, inState, rfl, _⟩ := Residual.exists_of_mem_afterTest member
    refine (tracks.remain before inState).filter _ fun step _ dropped => ?_
    have settled : Residual.settled problem asked outcome step = some true := by
      simpa using dropped
    obtain ⟨other, rfl, sameSubject, holds⟩ := holds_of_settled sound suits came settled
    exact ⟨value, by rw [sameSubject]; exact found, holds⟩

theorem Tracks.thinned_afterTest (rooted : problem.table.Rooted)
    (sound : problem.types.SoundFor typing)
    (tracks : problem.Tracks typing input state progress)
    (found : progress.slots.get? asked.subject = some value)
    (suits : asked.Suits problem.types problem.table value)
    {outcome : Bool} (came : asked.predicate.holds typing value = outcome) :
    Candidate.Thinned (problem.entries typing input state)
      (problem.entries typing input (state.afterTest problem asked outcome)) := by
  have slotsSound := tracks.sound
  have remain := tracks.remain
  clear tracks
  induction state with
  | nil => exact .nil
  | cons pending rest ih =>
      have onward := ih fun other member => remain other (List.mem_cons_of_mem _ member)
      unfold Residual.afterTest at onward ⊢
      rw [List.filterMap_cons]
      unfold Pending.resolve at onward ⊢
      split
      · rename_i dropped
        refine .drop ?_ onward
        split at dropped
        · rename_i refused
          obtain ⟨step, inTodo, settled⟩ := List.any_eq_true.mp refused
          obtain ⟨other, rfl, sameSubject, refuses⟩ :=
            holds_of_settled sound suits came (beq_iff_eq.mp settled)
          exact Checklist.run_ne_of_test rooted slotsSound
            ((remain pending List.mem_cons_self).subset inTodo)
            (by rw [sameSubject]; exact found) refuses
        · contradiction
      · rename_i left kept
        split at kept
        · contradiction
        · cases kept
          exact .keep onward

end MergeProblem

end MatchCompiler
