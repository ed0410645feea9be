import Mathlib
import MatchCompiler.Proofs.Coverage.Survey
import MatchCompiler.Proofs.DecisionGraph.Ways
import MatchCompiler.Proofs.Reachability

/-!
# The shortest way to fail

The steps of the search are the turns of the ways through a graph, and the trail
of a visit is what the tests on such a way came out as. So the first leaf that
fails is a nearest one, and its trail tells a shortest way to fail.
-/

set_option autoImplicit false

namespace MatchCompiler

def Turn.outcome? : Turn → Option (Test × Bool)
  | .test asked outcome => some (asked, outcome)
  | .access _ | .bind _ _ => none

theorem Node.mem_feasible {node : Node} {target : NodeId} {outcome : Option (Test × Bool)} :
    (target, outcome) ∈ node.feasible ↔
      ∃ turn, (turn, target) ∈ node.possibleTurns ∧ turn.outcome? = outcome := by
  simp only [mem_possibleTurns]
  cases node with
  | access made next =>
      simp [feasible, turns, Turn.Possible, Turn.outcome?, and_assoc, eq_comm]
  | test asked onTrue onFalse =>
      by_cases never : asked.predicate = .never <;>
        simp [feasible, turns, Turn.Possible, Turn.outcome?, never, or_and_right, exists_or,
          and_assoc, @eq_comm _ outcome]
  | bind arm label bindings guard accepted rejected =>
      cases rejected <;>
        simp [feasible, turns, Turn.Possible, Turn.outcome?, or_and_right, exists_or, and_assoc,
          @eq_comm _ outcome]
  | success arm label => simp [feasible, turns]
  | failure => simp [feasible, turns]

namespace DecisionGraph

variable {graph : DecisionGraph} {id : NodeId} {turns : List Turn} {visit : Visit}

def visitAfter (turns : List Turn) (id : NodeId) : Visit :=
  ⟨id, (turns.filterMap Turn.outcome?).reverse⟩

theorem visitAfter_snoc (turns : List Turn) (turn : Turn) (id : NodeId) :
    visitAfter (turns ++ [turn]) id =
      ⟨id, turn.outcome?.toList ++ (turns.filterMap Turn.outcome?).reverse⟩ := by
  cases isOutcome : turn.outcome? <;> simp [visitAfter, isOutcome]

theorem mem_onward {after : Visit} : after ∈ graph.onward visit ↔
    ∃ node turn, graph.node? visit.node = some node ∧ (turn, after.node) ∈ node.possibleTurns ∧
      after.trail = turn.outcome?.toList ++ visit.trail := by
  unfold onward
  cases found : graph.node? visit.node with
  | none => simp
  | some node =>
      simp only [Option.map_some, Option.getD_some, List.mem_map, Prod.exists, Node.mem_feasible,
        Option.some.injEq, exists_and_left, exists_eq_left']
      constructor
      · rintro ⟨_, _, ⟨turn, taken, rfl⟩, rfl⟩
        exact ⟨turn, taken, rfl⟩
      · rintro ⟨turn, taken, isTrail⟩
        exact ⟨after.node, turn.outcome?, ⟨turn, taken, rfl⟩, by rw [← isTrail]⟩

/-- The search takes as many steps to a visit as the way has turns. -/
theorem stepsTo_iff {count : Nat} : graph.search.StepsTo [⟨graph.root, []⟩] count visit ↔
    visit.node.index < graph.size ∧ ∃ turns, graph.Way turns visit.node ∧ turns.length = count ∧
      visit = visitAfter turns visit.node := by
  constructor
  · intro steps
    induction steps with
    | start member inside =>
        obtain rfl := List.mem_singleton.mp member
        exact ⟨inside, [], graph.way_root, rfl, rfl⟩
    | @onward count before after _ onward ih =>
        obtain ⟨_, turns, way, isLength, isVisit⟩ := ih
        obtain ⟨node, turn, found, taken, isTrail⟩ := mem_onward.mp onward.1
        refine ⟨onward.2, turns ++ [turn], way.snoc found taken, by simp [isLength], ?_⟩
        rw [visitAfter_snoc]
        rw [isVisit] at isTrail
        exact congrArg (Visit.mk after.node) isTrail
  · rintro ⟨inside, turns, way, rfl, isVisit⟩
    rw [isVisit]
    generalize visit.node = id at way inside
    clear isVisit
    induction turns using List.reverseRecOn generalizing id with
    | nil =>
        rcases way_iff.mp way with ⟨_, rfl⟩ | ⟨_, _, _, _, _, _, _, isSnoc⟩
        · exact .start (List.mem_singleton_self _) inside
        · simp at isSnoc
    | append_singleton turns turn ih =>
        rcases way_iff.mp way with
          ⟨isNil, _⟩ | ⟨before, source, node, last, sourceWay, found, taken, isSnoc⟩
        · simp at isNil
        · obtain ⟨rfl, isLast⟩ := List.append_inj' isSnoc rfl
          obtain rfl := List.singleton_injective isLast
          rw [List.length_append, visitAfter_snoc]
          refine .onward (ih source sourceWay (node?_inside found)) ⟨?_, inside⟩
          exact mem_onward.mpr ⟨node, turn, found, taken, rfl⟩

theorem uniform_search (graph : DecisionGraph) : graph.search.Uniform := by
  intro first second same next onward
  have sameNode : first.node = second.node := NodeId.ext same
  obtain ⟨node, turn, found, taken, _⟩ := mem_onward.mp onward
  exact ⟨⟨next.node, turn.outcome?.toList ++ second.trail⟩,
    mem_onward.mpr ⟨node, turn, sameNode ▸ found, taken, rfl⟩, rfl⟩

theorem isSome_witness_iff : graph.coverage.witness.isSome = true ↔
    ∃ leaf, graph.node? leaf = some .failure ∧ graph.Feasible leaf := by
  rw [← nonExhaustive_iff]
  simp [coverage]

/-- On any graph, with cycles or edges that lead nowhere, the search with a queue
and the way back over the edges that nodes were first met over both end within as
many rounds as there are nodes, and find the coverage. It has a witness if and only
if a possible path leads to a leaf that fails. The witness lists the outcomes of the
tests on such a path, and no possible path to a leaf that fails has fewer edges. -/
theorem witness_shortest (graph : DecisionGraph) :
    (∀ rounds, graph.size ≤ rounds → graph.surveyedCoverage rounds = some graph.coverage) ∧
      (graph.coverage.witness.isSome = true ↔
        ∃ leaf, graph.node? leaf = some .failure ∧ graph.Feasible leaf) ∧
      ∀ outcomes, graph.coverage.witness = some outcomes →
        ∃ turns leaf, graph.Way turns leaf ∧ graph.node? leaf = some .failure ∧
          outcomes = turns.filterMap Turn.outcome? ∧ turns.length < graph.size ∧
          ∀ others other, graph.Way others other → graph.node? other = some .failure →
            turns.length ≤ others.length := by
  refine ⟨fun rounds => surveyedCoverage_eq, isSome_witness_iff, fun outcomes reported => ?_⟩
  obtain ⟨visit, found, rfl⟩ := Option.map_eq_some_iff.mp reported
  have fails : graph.node? visit.node = some .failure := by
    simpa using List.find?_some found
  obtain ⟨depth, member, nearest⟩ :=
    graph.uniform_search.nearest_of_find?
      (fun same => congrArg (fun index => graph.nodes[index]? == some .failure) same) found
  obtain ⟨inside, turns, way, rfl, isVisit⟩ :=
    stepsTo_iff.mp (LevelSearch.stepsTo_of_mem_layer member)
  refine ⟨turns, visit.node, way, fails, ?_, LevelSearch.depth_lt member, ?_⟩
  · rw [isVisit]
    simp [visitAfter]
  · intro others other otherWay otherFails
    refine nearest others.length (visitAfter others other) ?_ (by simp [visitAfter, otherFails])
    exact stepsTo_iff.mpr ⟨node?_inside otherFails, others, otherWay, rfl, rfl⟩

/-- A graph with a cycle, an edge that leaves it, a leaf that fails behind a test
that is never true, and a test with both edges to one node. -/
def windingGraph : DecisionGraph where
  nodes := #[.test ⟨.root, .nonNull⟩ ⟨1⟩ ⟨2⟩, .test ⟨.root, .never⟩ ⟨5⟩ ⟨0⟩,
    .test ⟨.root, .isNull⟩ ⟨9⟩ ⟨3⟩, .test ⟨.root, .nonNull⟩ ⟨4⟩ ⟨4⟩,
    .bind 0 ⟨0⟩ [] (some ⟨0⟩) ⟨6⟩ (some ⟨5⟩), .failure, .success 0 ⟨0⟩]
  root := ⟨0⟩
  table := .ofInput Hierarchy.object
  armCount := 1

theorem witness_shortest_windingGraph :
    (∃ coverage, windingGraph.surveyedCoverage 7 = some coverage ∧ coverage.witness =
        some [(⟨.root, .nonNull⟩, false), (⟨.root, .isNull⟩, false), (⟨.root, .nonNull⟩, true)]) ∧
      (∃ leaf, windingGraph.node? leaf = some .failure ∧ windingGraph.Feasible leaf) ∧
      ∃ turns leaf, windingGraph.Way turns leaf ∧ turns.filterMap Turn.outcome? =
        [(⟨.root, .nonNull⟩, false), (⟨.root, .isNull⟩, false), (⟨.root, .nonNull⟩, true)] ∧
      ∀ others, windingGraph.Way others ⟨5⟩ → turns.length ≤ others.length := by
  have reported : windingGraph.coverage.witness =
      some [(⟨.root, .nonNull⟩, false), (⟨.root, .isNull⟩, false), (⟨.root, .nonNull⟩, true)] := by
    cbv
  obtain ⟨loops, present, shortest⟩ := witness_shortest windingGraph
  obtain ⟨turns, leaf, way, _, isOutcomes, _, least⟩ := shortest _ reported
  exact ⟨⟨_, loops 7 (by decide), reported⟩, present.mp (by rw [reported]; rfl), turns, leaf, way,
    isOutcomes.symm, fun others otherWay => least others ⟨5⟩ otherWay rfl⟩

end DecisionGraph

end MatchCompiler
