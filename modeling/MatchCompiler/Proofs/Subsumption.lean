import Mathlib
import MatchCompiler.Proofs.DecisionGraph.Shape
import MatchCompiler.Proofs.Reachability
import MatchCompiler.Proofs.Residual.Invariant

/-!
# Arms that an earlier one subsumes

If an arm without a guard asks for nothing that a later arm does not ask for, the
later arm is never taken. No step of the build compares the two: whatever keeps
the later arm keeps the earlier one in front of it, with less to do. An arm that
asks for nothing stays until it is taken, so the match cannot fail.
-/

set_option autoImplicit false

namespace MatchCompiler

namespace Pending

variable {count : Nat} {answer : Step → Option Bool} {pending left shadow : Pending count}

theorem arm_of_resolve (resolved : pending.resolve answer = some left) : left.arm = pending.arm := by
  rw [(resolve_eq_some resolved).1]

/-- An arm that asks for less is not refused where the other one is not, and still
asks for less. -/
theorem exists_resolve_of_subset (resolved : pending.resolve answer = some left)
    (less : shadow.todo ⊆ pending.todo) :
    ∃ after, shadow.resolve answer = some after ∧ after.arm = shadow.arm ∧
      after.todo ⊆ left.todo := by
  obtain ⟨rfl, unrefused⟩ := resolve_eq_some resolved
  refine ⟨{ shadow with todo := shadow.todo.filter (answer · != some true) }, if_neg ?_, rfl,
    List.filter_subset _ less⟩
  intro refused
  obtain ⟨step, inTodo, isFalse⟩ := List.any_eq_true.mp refused
  exact unrefused step (less inTodo) (beq_iff_eq.mp isFalse)

end Pending

namespace Residual

variable {count : Nat} {earlier later arm : Fin count} {state others : Residual count}

/-- While one arm waits, an earlier one waits for no more than it does. -/
structure Shadows (earlier later : Fin count) (state : Residual count) : Prop where
  ascending : state.Pairwise fun first second => first.arm < second.arm
  waits : ∀ pending ∈ state, pending.arm = later →
    ∃ shadow ∈ state, shadow.arm = earlier ∧ shadow.todo ⊆ pending.todo

def Ready (arm : Fin count) (state : Residual count) : Prop :=
  ⟨arm, []⟩ ∈ state

theorem Shadows.resolve (shadows : Shadows earlier later state) (answer : Step → Option Bool) :
    Shadows earlier later (state.filterMap (Pending.resolve answer)) where
  ascending := shadows.ascending.filterMap _ fun first second before left kept after keptAfter => by
    rw [Pending.arm_of_resolve kept, Pending.arm_of_resolve keptAfter]
    exact before
  waits := by
    intro left member isLater
    obtain ⟨pending, inState, resolved⟩ := List.mem_filterMap.mp member
    rw [Pending.arm_of_resolve resolved] at isLater
    obtain ⟨shadow, shadowIn, isEarlier, less⟩ := shadows.waits pending inState isLater
    obtain ⟨after, kept, sameArm, stillLess⟩ := Pending.exists_resolve_of_subset resolved less
    exact ⟨after, List.mem_filterMap.mpr ⟨shadow, shadowIn, kept⟩, sameArm.trans isEarlier,
      stillLess⟩

theorem Shadows.tail {front : Pending count} (shadows : Shadows earlier later (front :: others))
    (other : front.arm ≠ earlier) : Shadows earlier later others where
  ascending := (List.pairwise_cons.mp shadows.ascending).2
  waits := by
    intro pending member isLater
    obtain ⟨shadow, shadowIn, isEarlier, less⟩ :=
      shadows.waits pending (List.mem_cons_of_mem _ member) isLater
    rcases List.mem_cons.mp shadowIn with rfl | inOthers
    · exact absurd isEarlier other
    · exact ⟨shadow, inOthers, isEarlier, less⟩

theorem Shadows.front_ne {front : Pending count} (shadows : Shadows earlier later (front :: others))
    (before : earlier < later) : front.arm ≠ later := by
  intro isLater
  obtain ⟨shadow, shadowIn, rfl, _⟩ := shadows.waits front List.mem_cons_self isLater
  rcases List.mem_cons.mp shadowIn with rfl | inOthers
  · exact absurd before (isLater ▸ lt_irrefl _)
  · have behind := (List.pairwise_cons.mp shadows.ascending).1 shadow inOthers
    rw [isLater] at behind
    exact lt_asymm before behind

theorem Ready.resolve (ready : Ready arm state) (answer : Step → Option Bool) :
    Ready arm (state.filterMap (Pending.resolve answer)) :=
  List.mem_filterMap.mpr ⟨⟨arm, []⟩, ready, rfl⟩

end Residual

namespace MergeProblem

variable {problem : MergeProblem} {earlier later arm : Fin problem.checklists.size}

theorem lasting_shadows (unguarded : (problem.checklist earlier).guard = none) :
    problem.Lasting (Residual.Shadows earlier later) where
  resolve := fun answer _ shadows => shadows.resolve answer
  reject := by
    intro front others guarded shadows
    refine shadows.tail ?_
    rintro rfl
    exact guarded unguarded

theorem lasting_ready (unguarded : (problem.checklist arm).guard = none) :
    problem.Lasting (Residual.Ready arm) where
  resolve := fun answer _ ready => ready.resolve answer
  reject := by
    intro front others guarded ready
    rcases List.mem_cons.mp ready with isFront | inOthers
    · cases isFront
      exact absurd unguarded guarded
    · exact inOthers

theorem shadows_start
    (less : (problem.checklist earlier).steps ⊆ (problem.checklist later).steps) :
    Residual.Shadows earlier later problem.start where
  ascending := List.pairwise_map.mpr (List.pairwise_lt_finRange _)
  waits := by
    intro pending member isLater
    obtain ⟨_, _, rfl⟩ := List.mem_map.mp member
    obtain rfl : _ = later := isLater
    exact ⟨_, List.mem_map.mpr ⟨earlier, List.mem_finRange earlier, rfl⟩, rfl, less⟩

theorem ready_start (nothing : (problem.checklist arm).steps = []) :
    Residual.Ready arm problem.start :=
  List.mem_map.mpr ⟨arm, List.mem_finRange arm, by rw [nothing]⟩

end MergeProblem

namespace DecisionGraph

variable {types : TypeOracle} {options : Options} {table : AccessTable}
  {checklists : List Checklist} {graph : DecisionGraph}

theorem stands_of_ofChecklists
    (built : ofChecklists types options table checklists = .ok graph)
    {holds : Residual checklists.toArray.size → Prop}
    (lasting : (MergeProblem.mk types options.selection table checklists.toArray).Lasting holds)
    (start : holds (MergeProblem.mk types options.selection table checklists.toArray).start)
    {id : NodeId} (inside : id.index < graph.size) :
    (MergeProblem.mk types options.selection table checklists.toArray).Stands graph.nodes holds
      id := by
  obtain ⟨_, _, _, _, unfolds⟩ := ofChecklists_eq_ok built
  exact stands_of_reaches lasting (.residual (MergeProblem.represents_of_unfolds _ unfolds) start)
    (reaches_of_built built id inside)

variable {arm later : Nat} {own other : Checklist}

theorem exists_arm (types : TypeOracle) (selection : Selection) (table : AccessTable)
    (found : checklists[arm]? = some own) :
    ∃ taken, taken.val = arm ∧
      (MergeProblem.mk types selection table checklists.toArray).checklist taken = own := by
  obtain ⟨inside, rfl⟩ := List.getElem?_eq_some_iff.mp found
  exact ⟨⟨arm, by simpa using inside⟩, rfl, by simp [MergeProblem.checklist]⟩

theorem arm?_ne_of_subsumed (built : ofChecklists types options table checklists = .ok graph)
    (isOwn : checklists[arm]? = some own) (unguarded : own.guard = none) (before : arm < later)
    (isOther : checklists[later]? = some other) (less : own.steps ⊆ other.steps) {id : NodeId}
    {node : Node} (found : graph.node? id = some node) : node.arm? ≠ some later := by
  intro takes
  obtain ⟨first, rfl, rfl⟩ := exists_arm types options.selection table isOwn
  obtain ⟨second, rfl, rfl⟩ := exists_arm types options.selection table isOther
  have stands := stands_of_ofChecklists built (MergeProblem.lasting_shadows unguarded)
    (MergeProblem.shadows_start less) (node?_inside found)
  obtain ⟨taken, others, sameArm, shadows⟩ := exists_of_stands_arm? stands found takes
  exact shadows.front_ne before (Fin.ext sameArm)

theorem node?_ne_failure (built : ofChecklists types options table checklists = .ok graph)
    (isOwn : checklists[arm]? = some own) (unguarded : own.guard = none) (nothing : own.steps = [])
    (id : NodeId) : graph.node? id ≠ some .failure := by
  intro found
  obtain ⟨taken, rfl, rfl⟩ := exists_arm types options.selection table isOwn
  have stands := stands_of_ofChecklists built (MergeProblem.lasting_ready unguarded)
    (MergeProblem.ready_start nothing) (node?_inside found)
  exact absurd (holds_nil_of_stands_failure stands found) List.not_mem_nil

/-- Of a built graph no node takes an arm behind one without a guard that asks for
no other steps, and the coverage says so. Where an arm without a guard asks for
nothing, no node fails. -/
theorem ofChecklists_subsumed (built : ofChecklists types options table checklists = .ok graph)
    (isOwn : checklists[arm]? = some own) (unguarded : own.guard = none) :
    (∀ later other, arm < later → checklists[later]? = some other → own.steps ⊆ other.steps →
        (∀ id node, graph.node? id = some node → node.arm? ≠ some later) ∧
          later ∈ graph.coverage.unreachableArms) ∧
      (own.steps = [] →
        (∀ id, graph.node? id ≠ some .failure) ∧ graph.coverage.nonExhaustive = false) := by
  refine ⟨fun later other before isOther less => ?_, fun nothing => ?_⟩
  · have untaken : ∀ id node, graph.node? id = some node → node.arm? ≠ some later :=
      fun id node found => arm?_ne_of_subsumed built isOwn unguarded before isOther less found
    have known : later < graph.armCount := by
      rw [(ofChecklists_eq_ok built).2.2.1]
      exact (List.getElem?_eq_some_iff.mp isOther).1
    exact ⟨untaken, (mem_unreachableArms_iff known).mpr
      fun id node found takes => absurd takes (untaken id node found)⟩
  · have unfailing := node?_ne_failure built isOwn unguarded nothing
    refine ⟨unfailing, ?_⟩
    cases reported : graph.coverage.nonExhaustive with
    | false => rfl
    | true =>
        obtain ⟨id, found, _⟩ := nonExhaustive_iff.mp reported
        exact absurd found (unfailing id)

/-- The guard keeps the first arm from standing in for the second one; the third
asks for more than the second, in another order, and the last one for nothing. -/
def coveredChecklists : List Checklist :=
  [⟨0, [.test ⟨.root, .nonNull⟩], [], some ⟨0⟩, ⟨0⟩⟩, ⟨1, [.test ⟨.root, .nonNull⟩], [], none, ⟨1⟩⟩,
    ⟨2, [.test ⟨.root, .equals (.int 1)⟩, .test ⟨.root, .nonNull⟩], [], none, ⟨2⟩⟩,
    ⟨3, [], [], none, ⟨3⟩⟩]

def coveredGraph : DecisionGraph where
  nodes := #[.success 0 ⟨0⟩, .success 1 ⟨1⟩, .bind 0 ⟨0⟩ [] (some ⟨0⟩) ⟨0⟩ (some ⟨1⟩),
    .success 3 ⟨3⟩, .test ⟨.root, .nonNull⟩ ⟨2⟩ ⟨3⟩]
  root := ⟨4⟩
  table := .ofInput Hierarchy.object
  armCount := 4

theorem subsumed_coveredGraph :
    ofChecklists ⟨fun _ _ => .tested, fun _ => true⟩ {} (.ofInput Hierarchy.object)
        coveredChecklists = .ok coveredGraph ∧
      (∀ id node, coveredGraph.node? id = some node → node.arm? ≠ some 2) ∧
      2 ∈ coveredGraph.coverage.unreachableArms ∧ coveredGraph.coverage.nonExhaustive = false := by
  have built : ofChecklists ⟨fun _ _ => .tested, fun _ => true⟩ {} (.ofInput Hierarchy.object)
      coveredChecklists = .ok coveredGraph := by
    cbv
  have second : coveredChecklists[1]? = some ⟨1, [.test ⟨.root, .nonNull⟩], [], none, ⟨1⟩⟩ := rfl
  have last : coveredChecklists[3]? = some ⟨3, [], [], none, ⟨3⟩⟩ := rfl
  obtain ⟨untaken, reported⟩ :=
    (ofChecklists_subsumed built second rfl).1 2 _ (by decide) rfl (by decide)
  exact ⟨built, untaken, reported, ((ofChecklists_subsumed built last rfl).2 rfl).2⟩

end DecisionGraph

end MatchCompiler
