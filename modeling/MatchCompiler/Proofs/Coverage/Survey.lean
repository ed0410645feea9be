import MatchCompiler.Coverage.Survey
import MatchCompiler.Proofs.LevelSearch.Layers
import MatchCompiler.Proofs.LevelSearch.Queue

/-!
# The search with a queue finds the coverage

The queue holds the visits that the search by levels makes next, and the edges
that nodes were first met over lead from each visit back to the root over what its
trail records. A node is met once, so no such edge is ever replaced.
-/

set_option autoImplicit false

namespace MatchCompiler

namespace DecisionGraph

abbrev search (graph : DecisionGraph) : LevelSearch Visit :=
  ⟨fun visit => visit.node.index, graph.onward, graph.size⟩

end DecisionGraph

theorem Node.feasible_eq (node : Node) :
    node.feasible = node.feasibleEdges.map fun edge => (edge.1, node.recorded edge.2) := by
  cases node with
  | access made next => rfl
  | test asked onTrue onFalse =>
      by_cases never : asked.predicate = .never <;>
        simp [feasible, feasibleEdges, recorded, never]
  | bind arm label bindings guard accepted rejected => cases rejected <;> rfl
  | success arm label => rfl
  | failure => rfl

def Visit.across (visit : Visit) (node : Node) (edge : NodeId × Option Bool) : Visit :=
  ⟨edge.1, (node.recorded edge.2).toList ++ visit.trail⟩

namespace DecisionGraph

variable {graph : DecisionGraph} {visit : Visit} {node : Node} {count : Nat}
  {entries : Array (Option Survey.Entry)}

theorem onward_eq (found : graph.node? visit.node = some node) :
    graph.onward visit = node.feasibleEdges.map (visit.across node) := by
  simp [onward, found, Node.feasible_eq, Visit.across, Function.comp_def]

/-! ## The way back from a visit -/

/-- So many entries lead from a visit back to the root, over what its trail
records. -/
inductive Retraces (graph : DecisionGraph) (entries : Array (Option Survey.Entry)) :
    Nat → Visit → Prop
  | root (isStart : entries[graph.root.index]? = some none) :
      Retraces graph entries 0 ⟨graph.root, []⟩
  | across {count : Nat} {before : Visit} {node : Node} {edge : NodeId × Option Bool}
      (earlier : Retraces graph entries count before)
      (found : graph.node? before.node = some node)
      (entered : entries[edge.1.index]? = some (some ⟨before.node, edge.2⟩)) :
      Retraces graph entries (count + 1) (before.across node edge)

theorem Retraces.inside (retraces : graph.Retraces entries count visit) :
    visit.node.index < entries.size := by
  cases retraces with
  | root isStart => exact (Array.getElem?_eq_some_iff.mp isStart).1
  | across _ _ entered => exact (Array.getElem?_eq_some_iff.mp entered).1

/-- The entry of a node that was not met is not on the way back. -/
theorem Retraces.enter (retraces : graph.Retraces entries count visit) {number : Nat}
    (notRoot : graph.root.index ≠ number) (unmet : entries[number]? = some none)
    (entry : Option Survey.Entry) :
    graph.Retraces (entries.setIfInBounds number entry) count visit := by
  induction retraces with
  | root isStart =>
      refine .root ?_
      rw [Array.getElem?_setIfInBounds_ne notRoot.symm]
      exact isStart
  | @across count before node edge _ found entered ih =>
      refine .across ih found ?_
      have apart : number ≠ edge.1.index := by
        rintro rfl
        simp [unmet] at entered
      rw [Array.getElem?_setIfInBounds_ne apart]
      exact entered

/-- The loop that goes back ends, and lists what the trail records. -/
theorem Retraces.retraceSurvey_eq (retraces : graph.Retraces entries count visit) :
    ∀ {rounds : Nat} (path : List (Test × Bool)), count ≤ rounds →
      graph.retraceSurvey entries rounds path visit.node = some (path ++ visit.trail).reverse := by
  induction retraces with
  | root isStart =>
      intro rounds path _
      rw [retraceSurvey, isStart, List.append_nil]
  | @across count before node edge _ found entered ih =>
      intro rounds path enough
      obtain ⟨rounds, rfl⟩ : ∃ fewer, rounds = fewer + 1 := ⟨rounds - 1, by omega⟩
      have isEntry : entries[(before.across node edge).node.index]? =
          some (some ⟨before.node, edge.2⟩) := entered
      rw [retraceSurvey, isEntry]
      simp only [found]
      rw [ih _ (by omega), Visit.across, List.append_assoc]

/-! ## What a round keeps -/

/-- A search under way, with the visits that are done and those that wait. The way
back from each of them is no longer than the search has gone on for. -/
structure Surveys (graph : DecisionGraph) (done waiting : List Visit) (survey : Survey) :
    Prop where
  queued : survey.queue = waiting.map Visit.node
  arms : survey.taken.size = graph.armCount
  taken : ∀ arm < graph.armCount, survey.taken[arm]? = some true ↔
    ∃ visit ∈ done, (graph.node? visit.node).bind Node.arm? = some arm
  failed : survey.failed =
    (done.find? fun visit => graph.node? visit.node == some .failure).map Visit.node
  sized : survey.entries.size = graph.size
  rootMet : survey.met[graph.root.index]? ≠ some false
  unmet : ∀ number : Nat, survey.met[number]? = some false →
    survey.entries[number]? = some none
  retraced : ∀ visit ∈ done ++ waiting,
    ∃ count ≤ done.length, graph.Retraces survey.entries count visit

variable {done waiting visited : List Visit} {survey : Survey}

theorem surveys_begin (graph : DecisionGraph) :
    graph.Surveys [] (graph.search.discover [⟨graph.root, []⟩]
      (Array.replicate graph.size false)).1 graph.beginSurvey where
  queued := by
    by_cases inside : graph.root.index < graph.size <;>
      simp [beginSurvey, LevelSearch.discover, inside]
  arms := Array.size_replicate
  taken := by simp [beginSurvey, Array.getElem?_replicate]
  failed := rfl
  sized := Array.size_replicate
  rootMet := by
    by_cases inside : graph.root.index < graph.size <;> simp [beginSurvey, inside]
  unmet := by
    intro number unset
    have inside : number < graph.size := by
      simpa [beginSurvey] using (Array.getElem?_eq_some_iff.mp unset).1
    simp [beginSurvey, inside]
  retraced := by
    intro visit member
    by_cases inside : graph.root.index < graph.size
    · simp only [List.nil_append, LevelSearch.discover, Array.getElem?_replicate, inside, if_true,
        List.mem_singleton] at member
      obtain rfl := member
      exact ⟨0, Nat.le_refl 0, .root (by simp [beginSurvey, inside])⟩
    · simp [LevelSearch.discover, inside] at member

theorem met_begin (graph : DecisionGraph) :
    graph.beginSurvey.met = (graph.search.discover [⟨graph.root, []⟩]
      (Array.replicate graph.size false)).2 := by
  by_cases inside : graph.root.index < graph.size
  · simp [beginSurvey, LevelSearch.discover, inside]
  · simp only [beginSurvey, LevelSearch.discover, Array.getElem?_replicate, inside, if_false]
    exact Array.setIfInBounds_eq_of_size_le (by simpa using inside)

theorem note_eq (survey : Survey) (id : NodeId) (node : Node) : survey.note id node =
    { survey with
      taken := node.arm?.elim survey.taken fun arm => survey.taken.setIfInBounds arm true
      failed := survey.failed.or (if node = .failure then some id else none) } := by
  cases node <;> simp [Survey.note, Node.arm?]

theorem Surveys.note (surveys : graph.Surveys done (visit :: waiting) survey)
    (found : graph.node? visit.node = some node) :
    graph.Surveys (done ++ [visit]) waiting
      ({ survey with queue := waiting.map Visit.node }.note visit.node node) := by
  rw [note_eq]
  refine ⟨rfl, ?_, ?_, ?_, surveys.sized, surveys.rootMet, surveys.unmet, ?_⟩
  · cases node.arm? <;> simp [surveys.arms]
  · intro arm below
    have isTaken : (∃ other ∈ done ++ [visit],
        (graph.node? other.node).bind Node.arm? = some arm) ↔
        survey.taken[arm]? = some true ∨ node.arm? = some arm := by
      simp [surveys.taken arm below, or_and_right, exists_or, found]
    rw [isTaken]
    cases takes : node.arm? with
    | none => simp
    | some other =>
        rw [Option.elim_some, Marks.getElem?_mark_of_lt (surveys.arms.symm ▸ below)]
        simp [eq_comm]
  · rw [surveys.failed, List.find?_append, Option.map_or]
    by_cases fails : node = .failure <;> simp [found, fails]
  · intro other member
    obtain ⟨count, le, retraces⟩ := surveys.retraced other (by simpa using member)
    exact ⟨count, by simp; omega, retraces⟩

theorem meet_of_met {source : NodeId} {edge : NodeId × Option Bool}
    (met : survey.met[edge.1.index]? ≠ some false) : survey.meet source edge = survey :=
  if_neg met

theorem meet_of_unmet {source : NodeId} {edge : NodeId × Option Bool}
    (unset : survey.met[edge.1.index]? = some false) : survey.meet source edge =
      { survey with
        met := survey.met.setIfInBounds edge.1.index true
        entries := survey.entries.setIfInBounds edge.1.index (some ⟨source, edge.2⟩)
        queue := survey.queue ++ [edge.1] } :=
  if_pos unset

/-- A node that is met gets its entry, and all ways back stay as they are. -/
theorem Surveys.meet (surveys : graph.Surveys done waiting survey)
    {edge : NodeId × Option Bool} (found : graph.node? visit.node = some node)
    (before : ∃ count < done.length, graph.Retraces survey.entries count visit)
    (unset : survey.met[edge.1.index]? = some false) :
    graph.Surveys done (waiting ++ [visit.across node edge]) (survey.meet visit.node edge) ∧
      ∃ count < done.length, graph.Retraces (survey.meet visit.node edge).entries count visit := by
  have notRoot : graph.root.index ≠ edge.1.index := fun same =>
    surveys.rootMet (same ▸ unset)
  have kept : ∀ {count : Nat} {other : Visit}, graph.Retraces survey.entries count other →
      graph.Retraces (survey.meet visit.node edge).entries count other := by
    intro count other retraces
    rw [meet_of_unmet unset]
    exact retraces.enter notRoot (surveys.unmet _ unset) _
  obtain ⟨count, short, retraces⟩ := before
  have entered : (survey.meet visit.node edge).entries[edge.1.index]? =
      some (some ⟨visit.node, edge.2⟩) := by
    have inside : edge.1.index < survey.entries.size :=
      (Array.getElem?_eq_some_iff.mp (surveys.unmet _ unset)).1
    simp [meet_of_unmet unset, inside]
  refine ⟨⟨?_, ?_, ?_, ?_, ?_, ?_, ?_, ?_⟩, count, short, kept retraces⟩
  · simp [meet_of_unmet unset, surveys.queued, Visit.across]
  · rw [meet_of_unmet unset]
    exact surveys.arms
  · rw [meet_of_unmet unset]
    exact surveys.taken
  · rw [meet_of_unmet unset]
    exact surveys.failed
  · simp [meet_of_unmet unset, surveys.sized]
  · rw [meet_of_unmet unset, Array.getElem?_setIfInBounds_ne notRoot.symm]
    exact surveys.rootMet
  · intro number unsetAfter
    rw [meet_of_unmet unset] at unsetAfter ⊢
    have apart : edge.1.index ≠ number := by
      rintro rfl
      simp [(Array.getElem?_eq_some_iff.mp unset).1] at unsetAfter
    rw [Array.getElem?_setIfInBounds_ne apart] at unsetAfter ⊢
    exact surveys.unmet number unsetAfter
  · intro other member
    rw [← List.append_assoc, List.mem_append, List.mem_singleton] at member
    rcases member with known | rfl
    · obtain ⟨longer, le, back⟩ := surveys.retraced other known
      exact ⟨longer, le, kept back⟩
    · exact ⟨count + 1, short, (kept retraces).across found entered⟩

/-- The edges of a node lead to what the search by levels discovers behind it. -/
theorem Surveys.meetAll (found : graph.node? visit.node = some node)
    (edges : List (NodeId × Option Bool)) :
    ∀ {waiting : List Visit} {survey : Survey}, graph.Surveys done waiting survey →
      (∃ count < done.length, graph.Retraces survey.entries count visit) →
      graph.Surveys done
          (waiting ++ (graph.search.discover (edges.map (visit.across node)) survey.met).1)
          (edges.foldl (Survey.meet visit.node) survey) ∧
        (edges.foldl (Survey.meet visit.node) survey).met =
          (graph.search.discover (edges.map (visit.across node)) survey.met).2 := by
  induction edges with
  | nil =>
      intro waiting survey surveys _
      rw [List.map_nil, LevelSearch.discover, List.append_nil]
      exact ⟨surveys, rfl⟩
  | cons edge rest ih =>
      intro waiting survey surveys before
      rw [List.map_cons, List.foldl_cons, LevelSearch.discover]
      by_cases unset : survey.met[edge.1.index]? = some false
      · obtain ⟨after, still⟩ := surveys.meet found before unset
        obtain ⟨whole, marks⟩ := ih after still
        have isMet : (survey.meet visit.node edge).met =
            survey.met.setIfInBounds edge.1.index true := by
          rw [meet_of_unmet unset]
        rw [isMet] at whole marks
        rw [if_pos (show survey.met[(visit.across node edge).node.index]? = some false from unset)]
        rw [List.append_assoc] at whole
        exact ⟨whole, marks⟩
      · rw [if_neg (show ¬ survey.met[(visit.across node edge).node.index]? = some false from unset),
          meet_of_met unset]
        exact ih surveys before

theorem Surveys.round (surveys : graph.Surveys done (visit :: waiting) survey)
    (found : graph.node? visit.node = some node) :
    graph.Surveys (done ++ [visit])
        (waiting ++ (graph.search.discover (graph.onward visit) survey.met).1)
        ({ survey with queue := waiting.map Visit.node }.round visit.node node) ∧
      ({ survey with queue := waiting.map Visit.node }.round visit.node node).met =
        (graph.search.discover (graph.onward visit) survey.met).2 := by
  have noted := surveys.note found
  obtain ⟨count, le, retraces⟩ := surveys.retraced visit (by simp)
  have sameMet : ({ survey with queue := waiting.map Visit.node }.note visit.node node).met =
      survey.met := by
    rw [note_eq]
  have whole := Surveys.meetAll found node.feasibleEdges noted ⟨count, by simp; omega, by
    rw [note_eq]
    exact retraces⟩
  rw [sameMet, ← onward_eq found] at whole
  exact whole

/-- The loop ends with the queue, and by then it has made all visits. The induction is
on the run of the queue by levels. -/
theorem Surveys.run {seen : Array Bool} (drains : graph.search.Drains waiting seen visited) :
    ∀ {done : List Visit} {survey : Survey} {rounds : Nat}, graph.Surveys done waiting survey →
      survey.met = seen → visited.length ≤ rounds →
      ∃ final, graph.runSurvey rounds survey = some final ∧
        graph.Surveys (done ++ visited) [] final := by
  induction drains with
  | nil seen =>
      intro done survey rounds surveys _ _
      refine ⟨survey, ?_, by rwa [List.append_nil]⟩
      rw [runSurvey, surveys.queued]
      rfl
  | @cons visit waiting visited seen _ ih =>
      rintro done survey rounds surveys rfl enough
      obtain ⟨rounds, rfl⟩ : ∃ fewer, rounds = fewer + 1 :=
        ⟨rounds - 1, by rw [List.length_cons] at enough; omega⟩
      obtain ⟨count, _, retraces⟩ := surveys.retraced visit (by simp)
      obtain ⟨node, found⟩ : ∃ node, graph.node? visit.node = some node :=
        ⟨_, Array.getElem?_eq_getElem (Nat.lt_of_lt_of_eq retraces.inside surveys.sized)⟩
      obtain ⟨after, sameMet⟩ := surveys.round found
      obtain ⟨final, runs, whole⟩ := ih after sameMet (by simpa using enough)
      refine ⟨final, ?_, by rwa [List.append_assoc] at whole⟩
      rw [runSurvey, surveys.queued]
      simp only [List.map_cons, found]
      exact runs

/-! ## The whole search -/

theorem Surveys.unreachable (surveys : graph.Surveys graph.visits [] survey) :
    ((List.range survey.taken.size).filter fun arm => survey.taken[arm]? == some false) =
      graph.coverage.unreachableArms := by
  rw [surveys.arms]
  refine List.filter_congr fun arm below => ?_
  have inside : arm < survey.taken.size := surveys.arms.symm ▸ List.mem_range.mp below
  have taken := surveys.taken arm (List.mem_range.mp below)
  rw [Array.getElem?_eq_getElem inside] at taken ⊢
  rw [Bool.eq_iff_iff, Bool.not_eq_true', List.contains_eq_mem, decide_eq_false_iff_not,
    List.mem_filterMap, ← taken]
  simp

theorem Surveys.witness {rounds : Nat} (surveys : graph.Surveys graph.visits [] survey)
    (enough : graph.visits.length ≤ rounds) :
    survey.failed.mapM (graph.retraceSurvey survey.entries rounds []) =
      some graph.coverage.witness := by
  rw [surveys.failed, coverage]
  cases found : graph.visits.find? fun visit => graph.node? visit.node == some .failure with
  | none => rfl
  | some visit =>
      obtain ⟨count, le, retraces⟩ :=
        surveys.retraced visit (by simpa using List.mem_of_find?_eq_some found)
      simp [retraces.retraceSurvey_eq [] (Nat.le_trans le enough)]

/-- Both loops end within as many rounds as the graph has nodes, and what they find
is the coverage. -/
theorem surveyedCoverage_eq {rounds : Nat} (enough : graph.size ≤ rounds) :
    graph.surveyedCoverage rounds = some graph.coverage := by
  have fewVisits : graph.visits.length ≤ rounds :=
    Nat.le_trans (graph.search.length_visits_le [⟨graph.root, []⟩]) enough
  obtain ⟨final, runs, surveys⟩ :=
    (surveys_begin graph).run (graph.search.drains_visits [⟨graph.root, []⟩]) graph.met_begin
      fewVisits
  have allDone : graph.Surveys graph.visits [] final := surveys
  have nonExhaustive : final.failed.isSome = graph.coverage.nonExhaustive := by
    rw [allDone.failed, Option.isSome_map]
    rfl
  rw [surveyedCoverage, runs]
  simp only [Option.bind_eq_bind, Option.bind_some, allDone.witness fewVisits, allDone.unreachable,
    nonExhaustive]
  rfl

end DecisionGraph

end MatchCompiler
