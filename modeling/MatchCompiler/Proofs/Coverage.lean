import MatchCompiler.Coverage
import MatchCompiler.Proofs.LevelSearch
import MatchCompiler.Proofs.Walk

/-!
# What a coverage report promises

Every node that a walk comes to is on a level of the search, whatever the graph
looks like and however type tests are answered. So an arm that is taken is not
reported as unreachable, and a graph that fails to match is reported as such.
-/

set_option autoImplicit false

namespace MatchCompiler

theorem Node.exists_feasible {table : AccessTable} {isInstance : Value → Ty → Bool}
    {oracle : GuardOracle} {progress after : Progress} {node : Node} {next : NodeId}
    (advanced : node.advanceBy table isInstance oracle progress = .proceed next after) :
    ∃ outcome, (next, outcome) ∈ node.feasible := by
  cases node with
  | access made target =>
      obtain ⟨rfl, _⟩ := Advance.access_eq_proceed advanced
      exact ⟨none, List.mem_cons_self⟩
  | test asked onTrue onFalse =>
      obtain ⟨value, _, rfl, _⟩ := Advance.choose_eq_proceed advanced
      cases came : asked.predicate.holdsBy isInstance value with
      | true =>
          -- the edge that is left out is the one of a test that is never true
          have possible : asked.predicate ≠ .never := by
            intro never
            rw [never] at came
            contradiction
          exact ⟨some (asked, true), by simp [feasible, possible]⟩
      | false => exact ⟨some (asked, false), by simp [feasible]⟩
  | bind arm label bindings guard accepted rejected =>
      cases guard with
      | none =>
          obtain ⟨rfl, _⟩ := Advance.bind_eq_proceed advanced
          exact ⟨none, List.mem_cons_self⟩
      | some condition =>
          obtain ⟨_, _, ⟨rfl, _⟩ | ⟨rfl, _⟩⟩ := Advance.guard_eq_proceed advanced
          · exact ⟨none, List.mem_cons_self⟩
          · exact ⟨none, by simp [feasible]⟩
  | success arm label => contradiction
  | failure => contradiction

namespace DecisionGraph

variable {graph : DecisionGraph}

def Covered (graph : DecisionGraph) (id : NodeId) : Prop :=
  ∃ visit ∈ graph.visits, visit.node = id

theorem covered_root (inside : graph.root.index < graph.size) : graph.Covered graph.root := by
  let search : LevelSearch Visit := ⟨fun visit => visit.node.index, graph.onward, graph.size⟩
  have starts : (⟨graph.root, []⟩ : Visit) ∈ [⟨graph.root, []⟩] := List.mem_singleton_self _
  have below : search.number ⟨graph.root, []⟩ < search.size := inside
  obtain ⟨visit, member, same⟩ := LevelSearch.visited_start starts below
  exact ⟨visit, member, NodeId.ext same⟩

theorem Covered.onward {id next : NodeId} {node : Node} {outcome : Option (Test × Bool)}
    (covered : graph.Covered id) (found : graph.node? id = some node)
    (leads : (next, outcome) ∈ node.feasible) (inside : next.index < graph.size) :
    graph.Covered next := by
  obtain ⟨visit, member, rfl⟩ := covered
  have step : (⟨next, outcome.toList ++ visit.trail⟩ : Visit) ∈ graph.onward visit := by
    unfold DecisionGraph.onward
    rw [found]
    exact List.mem_map.mpr ⟨(next, outcome), leads, rfl⟩
  obtain ⟨other, otherMember, same⟩ := LevelSearch.visited_onward member ⟨step, inside⟩
  exact ⟨other, otherMember, NodeId.ext same⟩

theorem exists_covered_leaf {isInstance : Value → Ty → Bool} {oracle : GuardOracle}
    {outcome : Outcome} (fuel : Nat) {id : NodeId} {progress : Progress}
    (covered : id.index < graph.size → graph.Covered id)
    (ended : (graph.walkFromBy isInstance oracle fuel id progress).result = .ok outcome) :
    ∃ leaf, graph.Covered leaf ∧
      ((∃ arm label bindings, graph.node? leaf = some (.success arm label) ∧
          outcome = .matched arm label bindings) ∨
        (graph.node? leaf = some .failure ∧ outcome = .noMatch)) := by
  induction fuel generalizing id progress with
  | zero => contradiction
  | succ fuel ih =>
      unfold walkFromBy at ended
      cases found : graph.node? id with
      | none =>
          rw [found] at ended
          contradiction
      | some node =>
          have here := covered (node?_inside found)
          simp only [found] at ended
          cases advanced : node.advanceBy graph.table isInstance oracle progress with
          | proceed next after =>
              rw [advanced] at ended
              obtain ⟨outcome, leads⟩ := Node.exists_feasible advanced
              exact ih (here.onward found leads) ended
          | halt run =>
              rw [advanced] at ended
              refine ⟨id, here, ?_⟩
              rcases Node.leaf_of_halt advanced ended with ⟨arm, label, rfl, matched⟩ | ⟨rfl, failed⟩
              · exact Or.inl ⟨arm, label, _, found, matched⟩
              · exact Or.inr ⟨found, failed⟩

theorem not_unreachable {arm : Nat} {label : Label} {leaf : NodeId}
    (covered : graph.Covered leaf) (found : graph.node? leaf = some (.success arm label)) :
    arm ∉ graph.coverage.unreachableArms := by
  obtain ⟨visit, member, rfl⟩ := covered
  intro reported
  obtain ⟨_, missing⟩ := List.mem_filter.mp reported
  have taken : arm ∈ graph.visits.filterMap fun visit =>
      (graph.node? visit.node).bind Node.arm? :=
    List.mem_filterMap.mpr ⟨visit, member, by rw [found]; rfl⟩
  simp [taken] at missing

theorem nonExhaustive_of_covered {leaf : NodeId} (covered : graph.Covered leaf)
    (found : graph.node? leaf = some .failure) : graph.coverage.nonExhaustive = true := by
  obtain ⟨visit, member, rfl⟩ := covered
  refine List.find?_isSome.mpr ⟨visit, member, ?_⟩
  simp [found]

theorem Coverage.exhaustive_of_isClean {coverage : Coverage} (clean : coverage.isClean = true) :
    coverage.nonExhaustive = false := by
  simp only [Coverage.isClean, Bool.and_eq_true, Bool.not_eq_true'] at clean
  exact clean.1.2

/-- A report holds of every run, on any graph, with cycles or edges that lead
nowhere. Where it has nothing to report, a run that does not fail takes an arm. -/
theorem coverage_sound (graph : DecisionGraph) (isInstance : Value → Ty → Bool)
    (oracle : GuardOracle) (input : Value) :
    (∀ arm label bindings, (graph.walkBy isInstance oracle input).result =
        .ok (.matched arm label bindings) → arm ∉ graph.coverage.unreachableArms) ∧
      ((graph.walkBy isInstance oracle input).result = .ok .noMatch →
        graph.coverage.nonExhaustive = true) ∧
      (graph.coverage.isClean = true → ∀ outcome,
        (graph.walkBy isInstance oracle input).result = .ok outcome →
          ∃ arm label bindings, outcome = .matched arm label bindings) := by
  have exhaustive : (graph.walkBy isInstance oracle input).result = .ok .noMatch →
      graph.coverage.nonExhaustive = true := by
    intro failed
    obtain ⟨leaf, covered, ⟨_, _, _, _, mismatch⟩ | ⟨found, _⟩⟩ :=
      exists_covered_leaf _ covered_root failed
    · contradiction
    · exact nonExhaustive_of_covered covered found
  refine ⟨?_, exhaustive, ?_⟩
  · intro arm label bindings matched
    obtain ⟨leaf, covered, ⟨_, _, _, found, same⟩ | ⟨_, mismatch⟩⟩ :=
      exists_covered_leaf _ covered_root matched
    · cases same
      exact not_unreachable covered found
    · contradiction
  · intro clean outcome ended
    cases outcome with
    | matched arm label bindings => exact ⟨arm, label, bindings, rfl⟩
    | noMatch =>
        have reported := exhaustive ended
        rw [Coverage.exhaustive_of_isClean clean] at reported
        contradiction

/-- A graph that asks again whether its input is null for as long as it is. -/
def waitingGraph : DecisionGraph where
  nodes := #[.test ⟨.root, .nonNull⟩ ⟨1⟩ ⟨0⟩, .success 0 ⟨0⟩]
  root := ⟨0⟩
  table := .ofInput Hierarchy.object
  armCount := 1

/-- Its report is clean, and the arm that a run takes is not listed. -/
theorem coverage_sound_waitingGraph :
    waitingGraph.coverage.isClean = true ∧
      (waitingGraph.walkBy (fun _ _ => true) (.ofFunction fun _ _ => .ok false)
        (.int 1)).result = .ok (.matched 0 ⟨0⟩ []) ∧
      0 ∉ waitingGraph.coverage.unreachableArms := by
  have taken : (waitingGraph.walkBy (fun _ _ => true) (.ofFunction fun _ _ => .ok false)
      (.int 1)).result = .ok (.matched 0 ⟨0⟩ []) := by
    rfl
  have sound := coverage_sound waitingGraph (fun _ _ => true) (.ofFunction fun _ _ => .ok false)
    (.int 1)
  exact ⟨by cbv, taken, sound.1 0 ⟨0⟩ [] taken⟩

end DecisionGraph

end MatchCompiler
