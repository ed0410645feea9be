import Mathlib
import MatchCompiler.Proofs.Refinement
import MatchCompiler.Proofs.Residual.Course

/-!
# The recursion of a build

A build goes on with residuals that have less left to do than the one before,
whatever the checklists ask for and however the types relate. So its equation
has one solution, and a path through the graph has no more turns than there were
steps and arms at the start.
-/

set_option autoImplicit false

namespace MatchCompiler

def Arena.place {count : Nat} (limit : Nat) (state : Residual count) (node : Node)
    (arena : Arena count) : Except BuildError (NodeId × Arena count) := do
  let (id, arena) ← arena.push limit node
  return (id, arena.finish state id)

namespace MergeProblem

variable {problem : MergeProblem} {limit : Nat} {state : Residual problem.checklists.size}

/-- The node of a residual, where the residuals behind it are left to `below`. -/
def buildBy (problem : MergeProblem) (limit : Nat)
    (below : Residual problem.checklists.size → Arena problem.checklists.size →
      Except BuildError (NodeId × Arena problem.checklists.size))
    (state : Residual problem.checklists.size) (arena : Arena problem.checklists.size) :
    Except BuildError (NodeId × Arena problem.checklists.size) :=
  match arena.finished[state]? with
  | some id => .ok (id, arena)
  | none =>
      match problem.move state with
      | .fail => do
          let (id, arena) ← arena.leaf limit .failure
          return (id, arena.finish state id)
      | .accept arm others => do
          let checklist := problem.checklist arm
          let (success, arena) ← arena.leaf limit (.success arm checklist.label)
          match checklist.guard with
          | none =>
              if checklist.bindings.isEmpty then return (success, arena)
              else
                arena.place limit state
                  (.bind arm checklist.label checklist.bindings none success none)
          | some guard => do
              let (rejected, arena) ← below others arena
              arena.place limit state
                (.bind arm checklist.label checklist.bindings (some guard) success (some rejected))
      | .access access next => do
          let (next, arena) ← below next arena
          arena.place limit state (.access access next)
      | .test test onTrue onFalse => do
          let (onTrue, arena) ← below onTrue arena
          let (onFalse, arena) ← below onFalse arena
          arena.place limit state (.test test onTrue onFalse)

theorem build_eq_buildBy (problem : MergeProblem) (limit : Nat)
    (state : Residual problem.checklists.size) (arena : Arena problem.checklists.size) :
    problem.build limit state arena = problem.buildBy limit (problem.build limit) state arena := by
  rw [build]
  unfold buildBy
  cases arena.finished[state]? with
  | some id => rfl
  | none =>
      dsimp only
      split
      · rename_i moved
        simp only [moved]
      · rename_i arm others moved
        simp only [moved]
        rfl
      · rename_i made next moved
        simp only [moved]
        rfl
      · rename_i asked onTrue onFalse moved
        simp only [moved]
        rfl

/-- Only residuals of less weight are left to others. -/
theorem buildBy_congr
    {below other : Residual problem.checklists.size → Arena problem.checklists.size →
      Except BuildError (NodeId × Arena problem.checklists.size)}
    (agree : ∀ next : Residual problem.checklists.size, next.weight < state.weight →
      below next = other next)
    (arena : Arena problem.checklists.size) :
    problem.buildBy limit below state arena = problem.buildBy limit other state arena := by
  unfold buildBy
  cases arena.finished[state]? with
  | some id => rfl
  | none =>
      cases moved : problem.move state with
      | fail => rfl
      | accept arm others => simp only [agree others (problem.weight_of_move_accept _ _ _ moved)]
      | access made next => simp only [agree next (problem.weight_of_move_access _ _ _ moved)]
      | test asked onTrue onFalse =>
          obtain ⟨trueLess, falseLess⟩ := problem.weight_of_move_test _ _ _ _ moved
          simp only [agree onTrue trueLess, agree onFalse falseLess]

theorem eq_build_of_solves
    {solution : Residual problem.checklists.size → Arena problem.checklists.size →
      Except BuildError (NodeId × Arena problem.checklists.size)}
    (solves : ∀ state arena,
      solution state arena = problem.buildBy limit solution state arena) :
    solution = problem.build limit := by
  funext state
  induction weightEq : state.weight using Nat.strongRecOn generalizing state with
  | _ weight ih =>
  subst weightEq
  funext arena
  rw [solves, build_eq_buildBy]
  exact buildBy_congr (fun next less => ih next.weight less next rfl) arena

end MergeProblem

/-! ## How long paths are -/

namespace Residual

variable {count : Nat}

theorem weight_eq (state : Residual count) :
    state.weight = (state.flatMap (·.todo)).length + state.length := by
  induction state with
  | nil => rfl
  | cons pending rest ih =>
      rw [weight_cons, ih, List.flatMap_cons, List.length_append, List.length_cons]
      omega

end Residual

theorem MergeProblem.weight_start (problem : MergeProblem) :
    problem.start.weight =
      (problem.checklists.toList.flatMap (·.steps)).length + problem.checklists.size := by
  have todos : problem.start.map (·.todo) = problem.checklists.toList.map (·.steps) := by
    apply List.ext_getElem
    · simp [start]
    · intro index inside inside'
      simp [start, checklist]
  rw [Residual.weight_eq, List.flatMap_def, todos, ← List.flatMap_def]
  simp [start]

namespace DecisionGraph

variable {graph : DecisionGraph} {problem : MergeProblem} {id target : NodeId} {node : Node}
  {turn : Turn} {turns : List Turn} {state : Residual problem.checklists.size}

theorem weight_onward_lt (represents : problem.Represents graph.nodes id state)
    (found : graph.node? id = some node) (taken : (turn, target) ∈ node.turns) :
    (state.onward problem turn).weight < state.weight := by
  cases represents with
  | fail stored | take stored _ _ =>
      obtain rfl := Option.some.inj (found.symm.trans stored)
      exact absurd taken List.not_mem_nil
  | bind stored _ _ =>
      obtain rfl := Option.some.inj (found.symm.trans stored)
      obtain ⟨rfl, _⟩ := Prod.mk.inj (List.mem_singleton.mp taken)
      simp [Residual.onward]
  | guard stored _ _ _ =>
      obtain rfl := Option.some.inj (found.symm.trans stored)
      rcases List.mem_cons.mp taken with accepted | rejected
      · obtain ⟨rfl, _⟩ := Prod.mk.inj accepted
        simp [Residual.onward]
      · obtain ⟨rfl, _⟩ := Prod.mk.inj (List.mem_singleton.mp rejected)
        simp [Residual.onward]
  | access stored moved _ =>
      obtain rfl := Option.some.inj (found.symm.trans stored)
      obtain ⟨rfl, _⟩ := Prod.mk.inj (List.mem_singleton.mp taken)
      exact problem.weight_of_move_access _ _ _ moved
  | test stored moved _ _ =>
      obtain rfl := Option.some.inj (found.symm.trans stored)
      obtain ⟨trueLess, falseLess⟩ := problem.weight_of_move_test _ _ _ _ moved
      rcases List.mem_cons.mp taken with isTrue | isFalse
      · obtain ⟨rfl, _⟩ := Prod.mk.inj isTrue
        exact trueLess
      · obtain ⟨rfl, _⟩ := Prod.mk.inj (List.mem_singleton.mp isFalse)
        exact falseLess

theorem Path.length_add_weight_le
    (represents : problem.Represents graph.nodes graph.root problem.start)
    (path : graph.Path graph.root turns id) :
    turns.length + (problem.start.along problem turns).weight ≤ problem.start.weight := by
  induction path with
  | nil => simp [Residual.along]
  | @snoc turns source target node turn path found taken ih =>
      rcases path.represents represents with here | ⟨_, _, _, _, _, leaf⟩
      · have less := weight_onward_lt here found taken
        unfold Residual.along at ih less ⊢
        rw [List.foldl_append, List.length_append]
        simp only [List.foldl_cons, List.foldl_nil, List.length_singleton]
        omega
      · obtain rfl := Option.some.inj (found.symm.trans leaf)
        exact absurd taken List.not_mem_nil

variable {types : TypeOracle} {options : Options} {table : AccessTable}
  {checklists : List Checklist}

theorem Path.length_le (built : ofChecklists types options table checklists = .ok graph)
    (path : graph.Path graph.root turns id) :
    turns.length ≤ (checklists.flatMap (·.steps)).length + checklists.length := by
  obtain ⟨_, _, _, _, unfolds⟩ := ofChecklists_eq_ok built
  have bounded := path.length_add_weight_le (MergeProblem.represents_of_unfolds _ unfolds)
  rw [MergeProblem.weight_start] at bounded
  simp only [List.size_toArray] at bounded
  omega

/-- The construction of a graph comes to an end, for any checklists and any
types: the build of a residual is determined by the builds of residuals with less
left to do, so nothing but a build solves its equation. A path through the graph
visits at most one node more than there are steps and arms. -/
theorem construction_terminates (types : TypeOracle) (options : Options) (table : AccessTable)
    (checklists : List Checklist) :
    let problem : MergeProblem := ⟨types, options.selection, table, checklists.toArray⟩
    (∀ limit state arena below,
        (∀ next : Residual problem.checklists.size, next.weight < state.weight →
          below next = problem.build limit next) →
        problem.build limit state arena = problem.buildBy limit below state arena) ∧
      (∀ limit solution,
        (∀ state arena, solution state arena = problem.buildBy limit solution state arena) →
        solution = problem.build limit) ∧
      ∀ graph, ofChecklists types options table checklists = .ok graph →
        ∀ turns id, graph.Path graph.root turns id →
          turns.length + 1 ≤ (checklists.flatMap (·.steps)).length + checklists.length + 1 := by
  intro problem
  refine ⟨?_, fun limit solution => MergeProblem.eq_build_of_solves, ?_⟩
  · intro limit state arena below agree
    rw [MergeProblem.build_eq_buildBy]
    exact MergeProblem.buildBy_congr (fun next less => (agree next less).symm) arena
  · intro graph built turns id path
    exact Nat.succ_le_succ (path.length_le built)

/-- Two guarded arms, with one test each. -/
def askingChecklists : List Checklist :=
  [⟨0, [.test ⟨.root, .nonNull⟩], [], some ⟨0⟩, ⟨0⟩⟩,
    ⟨1, [.test ⟨.root, .equals (.int 1)⟩], [], some ⟨1⟩, ⟨1⟩⟩]

def askingGraph : DecisionGraph where
  nodes := #[.success 0 ⟨0⟩, .success 1 ⟨1⟩, .failure, .bind 1 ⟨1⟩ [] (some ⟨1⟩) ⟨1⟩ (some ⟨2⟩),
    .test ⟨.root, .equals (.int 1)⟩ ⟨3⟩ ⟨2⟩, .bind 0 ⟨0⟩ [] (some ⟨0⟩) ⟨0⟩ (some ⟨4⟩),
    .test ⟨.root, .nonNull⟩ ⟨5⟩ ⟨2⟩]
  root := ⟨6⟩
  table := .ofInput Hierarchy.object
  armCount := 2

/-- Where both guards reject, all the steps and all the arms are passed. -/
theorem construction_terminates_askingGraph :
    ofChecklists ⟨fun _ _ => .never, fun _ => true⟩ {} (.ofInput Hierarchy.object)
        askingChecklists = .ok askingGraph ∧
      askingGraph.Path ⟨6⟩ [.test ⟨.root, .nonNull⟩ true, .bind 0 false,
        .test ⟨.root, .equals (.int 1)⟩ true, .bind 1 false] ⟨2⟩ ∧
      ∀ turns id, askingGraph.Path ⟨6⟩ turns id → turns.length + 1 ≤ 5 := by
  have built : ofChecklists ⟨fun _ _ => .never, fun _ => true⟩ {} (.ofInput Hierarchy.object)
      askingChecklists = .ok askingGraph := by
    cbv
  refine ⟨built, ?_, ?_⟩
  · have atGuard : askingGraph.Path ⟨6⟩ [.test ⟨.root, .nonNull⟩ true] ⟨5⟩ :=
      .snoc .nil rfl List.mem_cons_self
    have atTest : askingGraph.Path ⟨6⟩ [.test ⟨.root, .nonNull⟩ true, .bind 0 false] ⟨4⟩ :=
      atGuard.snoc rfl (List.mem_cons_of_mem _ List.mem_cons_self)
    have atOther := atTest.snoc rfl List.mem_cons_self
    exact atOther.snoc rfl (List.mem_cons_of_mem _ List.mem_cons_self)
  · exact (construction_terminates ⟨fun _ _ => .never, fun _ => true⟩ {}
      (.ofInput Hierarchy.object) askingChecklists).2.2 askingGraph built

end DecisionGraph

end MatchCompiler
