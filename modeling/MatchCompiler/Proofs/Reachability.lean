import Mathlib
import MatchCompiler.Proofs.Coverage
import MatchCompiler.Proofs.DecisionGraph.Path
import MatchCompiler.Proofs.Flow.Propagation

/-!
# What can be reached

The search for coverage and the flow of facts go through a graph in different
orders, but both follow the turns of possible paths. So the search visits the
nodes of the graph that a possible path leads to, and in a graph without cycles
they are the ones with facts.
-/

set_option autoImplicit false

namespace MatchCompiler

theorem Node.mem_feasible_iff {node : Node} {target : NodeId} :
    (∃ outcome, (target, outcome) ∈ node.feasible) ↔
      ∃ turn, (turn, target) ∈ node.turns ∧ turn.Possible := by
  cases node with
  | access made next => simp [feasible, turns, Turn.Possible]
  | test asked onTrue onFalse =>
      by_cases never : asked.predicate = .never <;>
        simp [feasible, turns, Turn.Possible, never, or_and_right, exists_or]
  | bind arm label bindings guard accepted rejected =>
      cases rejected <;> simp [feasible, turns, Turn.Possible, or_and_right, exists_or]
  | success arm label => simp [feasible, turns]
  | failure => simp [feasible, turns]

theorem Node.mem_outflow_iff {types : TypeOracle} {table : AccessTable} {facts : Facts}
    {node : Node} {target : NodeId} :
    (∃ edge ∈ node.outflow types table facts, edge.1 = target) ↔
      ∃ turn, (turn, target) ∈ node.turns ∧ turn.Possible := by
  cases node with
  | access made next => simp [outflow, turns, Turn.Possible, eq_comm]
  | test asked onTrue onFalse =>
      by_cases never : asked.predicate = .never
      · simp [outflow, turns, Turn.Possible, never, or_and_right, exists_or, eq_comm]
      · simp [outflow, turns, Turn.Possible, never, or_and_right, exists_or, @eq_comm _ target]
  | bind arm label bindings guard accepted rejected =>
      cases rejected <;>
        simp [outflow, turns, Turn.Possible, or_and_right, exists_or, eq_comm]
  | success arm label => simp [outflow, turns]
  | failure => simp [outflow, turns]

namespace DecisionGraph

variable {graph : DecisionGraph} {id : NodeId}

/-! ## The search for coverage -/

theorem feasible_of_mem_visits {visit : Visit} (member : visit ∈ graph.visits) :
    visit.node.index < graph.size ∧ graph.Feasible visit.node := by
  obtain ⟨first, isStart, inside, path⟩ := LevelSearch.reached_of_mem_visits member
  obtain rfl := List.mem_singleton.mp isStart
  clear member
  induction path with
  | refl => exact ⟨inside, graph.feasible_root⟩
  | @tail before after _ onward ih =>
      have step : after ∈ graph.onward before := onward.1
      unfold DecisionGraph.onward at step
      obtain ⟨⟨target, outcome⟩, leads, rfl⟩ := List.mem_map.mp step
      refine ⟨onward.2, ?_⟩
      cases found : graph.node? before.node with
      | none => simp [found] at leads
      | some node =>
          obtain ⟨turn, taken, possible⟩ :=
            Node.mem_feasible_iff.mp ⟨outcome, by simpa [found] using leads⟩
          exact ih.2.onward found taken possible

/-- The search comes to the nodes of the graph that a possible path leads to. -/
theorem covered_iff_feasible : graph.Covered id ↔ id.index < graph.size ∧ graph.Feasible id := by
  constructor
  · rintro ⟨visit, member, rfl⟩
    exact feasible_of_mem_visits member
  · rintro ⟨inside, turns, path, possible⟩
    induction path with
    | nil => exact covered_root inside
    | @snoc turns source target node turn path found taken ih =>
        have before := ih (node?_inside found) fun other member =>
          possible other (List.mem_append_left _ member)
        obtain ⟨outcome, leads⟩ := Node.mem_feasible_iff.mpr ⟨turn, taken, possible turn (by simp)⟩
        exact before.onward found leads inside

theorem exists_feasible_of_matched {isInstance : Value → Ty → Bool} {oracle : GuardOracle}
    {input : Value} {arm : Nat} {label : Label} {bindings : List (Symbol × Value)}
    (ended : (graph.walkBy isInstance oracle input).result = .ok (.matched arm label bindings)) :
    ∃ leaf, graph.node? leaf = some (.success arm label) ∧ graph.Feasible leaf := by
  obtain ⟨leaf, covered, ⟨_, _, _, found, same⟩ | ⟨_, mismatch⟩⟩ :=
    exists_covered_leaf _ covered_root ended
  · cases same
    exact ⟨leaf, found, (covered_iff_feasible.mp covered).2⟩
  · contradiction

theorem mem_unreachableArms_iff {arm : Nat} (known : arm < graph.armCount) :
    arm ∈ graph.coverage.unreachableArms ↔
      ∀ id node, graph.node? id = some node → node.arm? = some arm → ¬ graph.Feasible id := by
  unfold coverage
  simp only [List.mem_filter, List.mem_range, known, true_and, Bool.not_eq_true',
    List.contains_eq_mem, decide_eq_false_iff_not, List.mem_filterMap, not_exists, not_and]
  constructor
  · intro untaken id node found takes feasible
    obtain ⟨visit, member, rfl⟩ := covered_iff_feasible.mpr ⟨node?_inside found, feasible⟩
    exact untaken visit member (by rw [found]; exact takes)
  · intro infeasible visit member takes
    obtain ⟨node, found, takes⟩ := Option.bind_eq_some_iff.mp takes
    exact infeasible visit.node node found takes (feasible_of_mem_visits member).2

theorem nonExhaustive_iff : graph.coverage.nonExhaustive = true ↔
    ∃ id, graph.node? id = some .failure ∧ graph.Feasible id := by
  constructor
  · intro reported
    obtain ⟨visit, member, fails⟩ := List.find?_isSome.mp reported
    exact ⟨visit.node, by simpa using fails, (feasible_of_mem_visits member).2⟩
  · rintro ⟨id, found, feasible⟩
    exact nonExhaustive_of_covered (covered_iff_feasible.mpr ⟨node?_inside found, feasible⟩) found

end DecisionGraph

/-! ## The flow of facts -/

namespace Flow

variable {table : AccessTable} {flow : Flow} {id : NodeId}

theorem isSome_stateAt?_arrive (table : AccessTable) (flow : Flow) (edge : NodeId × Facts)
    (inside : id.index < flow.states.size) :
    ((flow.arrive table edge).stateAt? id).isSome = true ↔
      (flow.stateAt? id).isSome = true ∨ edge.1 = id := by
  rw [stateAt?_arrive, Array.getElem?_eq_getElem inside]
  by_cases same : edge.1 = id <;> simp [same]

theorem isSome_stateAt?_foldl_arrive (edges : List (NodeId × Facts)) :
    ∀ {flow : Flow}, id.index < flow.states.size →
      (((edges.foldl (arrive table) flow).stateAt? id).isSome = true ↔
        (flow.stateAt? id).isSome = true ∨ ∃ edge ∈ edges, edge.1 = id) := by
  induction edges with
  | nil => simp
  | cons edge rest ih =>
      intro flow inside
      have stillInside : id.index < (flow.arrive table edge).states.size := by
        rw [size_states_arrive]
        exact inside
      rw [List.foldl_cons, ih stillInside, isSome_stateAt?_arrive table flow edge inside]
      simp [or_assoc]

theorem mem_unreachable_iff : id ∈ flow.unreachable ↔
    id.index < flow.states.size ∧ flow.stateAt? id = none := by
  unfold unreachable stateAt?
  simp only [List.mem_map, List.mem_filter, Prod.exists, List.mem_zipIdx_iff_getElem?,
    Array.getElem?_toList, Option.isNone_iff_eq_none]
  constructor
  · rintro ⟨_, index, ⟨found, rfl⟩, rfl⟩
    exact ⟨(Array.getElem?_eq_some_iff.mp found).1, by rw [found]; rfl⟩
  · rintro ⟨inside, missing⟩
    refine ⟨none, id.index, ⟨?_, rfl⟩, rfl⟩
    rw [Array.getElem?_eq_getElem inside] at missing ⊢
    exact congrArg some missing

end Flow

namespace DecisionGraph

variable {graph : DecisionGraph} {types : TypeOracle} {flow : Flow} {front back : List NodeId}
  {id target : NodeId} {node : Node} {turn : Turn}

/-- A possible path leads over one of the nodes in `front` to a node, or starts there. -/
def Informed (graph : DecisionGraph) (front : List NodeId) (id : NodeId) : Prop :=
  id = graph.root ∨ ∃ source ∈ front, graph.Feasible source ∧ ∃ node turn,
    graph.node? source = some node ∧ (turn, id) ∈ node.turns ∧ turn.Possible

theorem Informed.feasible (informed : graph.Informed front id) : graph.Feasible id := by
  rcases informed with rfl | ⟨source, _, feasible, node, turn, found, taken, possible⟩
  · exact graph.feasible_root
  · exact feasible.onward found taken possible

theorem Feasible.informed (feasible : graph.Feasible id)
    (earlier : ∀ {source}, source ∈ graph.topologicalOrder → graph.Edge source id →
      source ∈ front) : graph.Informed front id := by
  rcases feasible.root_or_onward with rfl | ⟨source, node, turn, before, found, taken, possible⟩
  · exact Or.inl rfl
  · have inOrder : source ∈ graph.topologicalOrder :=
      (graph.mem_topologicalOrder source).mpr ⟨before.reaches, node?_inside found⟩
    have edge := edge_of_node found (Node.mem_successors_of_turn taken)
    exact Or.inr ⟨source, earlier inOrder edge, before, node, turn, found, taken, possible⟩

theorem informed_append (found : graph.node? id = some node) :
    graph.Informed (front ++ [id]) target ↔ graph.Informed front target ∨
      (graph.Feasible id ∧ ∃ turn, (turn, target) ∈ node.turns ∧ turn.Possible) := by
  unfold Informed
  simp only [List.mem_append, List.mem_singleton, or_and_right, exists_or, exists_eq_left, or_assoc,
    found, Option.some.injEq, exists_and_left, exists_eq_left']

/-- The nodes that facts came to once the nodes in `front` were visited. -/
structure Spread (graph : DecisionGraph) (front : List NodeId) (flow : Flow) : Prop where
  sized : flow.states.size = graph.size
  informed : ∀ {id}, id.index < graph.size →
    ((flow.stateAt? id).isSome = true ↔ graph.Informed front id)

theorem spread_start (graph : DecisionGraph) (types : TypeOracle) :
    graph.Spread [] (Flow.start types graph) where
  sized := by simp [Flow.start]
  informed := by
    intro id inside
    unfold Flow.stateAt? Flow.start Informed
    by_cases isRoot : id = graph.root
    · subst isRoot
      simp [inside]
    · have apart : graph.root.index ≠ id.index := fun same => isRoot (NodeId.ext same.symm)
      simp [apart, isRoot, inside]

theorem Spread.visit (acyclic : graph.Acyclic)
    (split : graph.topologicalOrder = front ++ id :: back) (spread : graph.Spread front flow) :
    graph.Spread (front ++ [id]) (flow.visit types graph id) := by
  have inOrder : id ∈ graph.topologicalOrder := by simp [split]
  have inside := ((graph.mem_topologicalOrder id).mp inOrder).2
  have stored : graph.node? id = some graph.nodes[id.index] := Array.getElem?_eq_getElem inside
  -- whatever leads here was visited before, so nothing is to come
  have known : (flow.stateAt? id).isSome = true ↔ graph.Feasible id := by
    rw [spread.informed inside]
    exact ⟨Informed.feasible, fun feasible => feasible.informed fun member edge =>
      mem_front_of_edge acyclic split edge member⟩
  unfold Flow.visit
  rw [stored]
  cases state : flow.stateAt? id with
  | none =>
      have infeasible : ¬ graph.Feasible id := by simpa [state] using known
      refine ⟨spread.sized, fun targetInside => ?_⟩
      rw [spread.informed targetInside, informed_append stored]
      simp [infeasible]
  | some facts =>
      have feasible : graph.Feasible id := by simpa [state] using known
      refine ⟨by simp [spread.sized], fun targetInside => ?_⟩
      rw [Flow.isSome_stateAt?_foldl_arrive _ (by simpa [spread.sized] using targetInside),
        Node.mem_outflow_iff, informed_append stored, ← spread.informed targetInside]
      simp [Flow.stateAt?, feasible]

theorem isSome_stateAt?_flow_iff (acyclic : graph.Acyclic) (types : TypeOracle)
    (inside : id.index < graph.size) :
    ((graph.flow types).stateAt? id).isSome = true ↔ graph.Feasible id := by
  have spread : graph.Spread graph.topologicalOrder (graph.flow types) :=
    flow_induction (graph.spread_start types) fun split spread => spread.visit acyclic split
  rw [spread.informed inside]
  exact ⟨Informed.feasible, fun feasible => feasible.informed fun member _ => member⟩

theorem size_states_flow (graph : DecisionGraph) (types : TypeOracle) :
    (graph.flow types).states.size = graph.size := by
  refine @flow_induction graph types (fun _ flow => flow.states.size = graph.size)
    (by simp [Flow.start]) fun _ sized => ?_
  unfold Flow.visit
  split <;> simp [sized]

theorem mem_unreachable_flow_iff (acyclic : graph.Acyclic) (types : TypeOracle)
    (inside : id.index < graph.size) :
    id ∈ (graph.flow types).unreachable ↔ ¬ graph.Feasible id := by
  rw [Flow.mem_unreachable_iff, size_states_flow, ← isSome_stateAt?_flow_iff acyclic types inside]
  simp [inside]

theorem feasible_of_stateAt? (acyclic : graph.Acyclic) {facts : Facts}
    (state : (graph.flow types).stateAt? id = some facts) : graph.Feasible id := by
  have stored := Option.join_eq_some_iff.mp state
  have inside : id.index < graph.size :=
    size_states_flow graph types ▸ (Array.getElem?_eq_some_iff.mp stored).1
  rw [← isSome_stateAt?_flow_iff acyclic types inside, state]
  rfl

/-- The search for coverage and the flow of facts agree on a graph without
cycles, also where edges leave it or nodes cannot be reached at all. A node
without facts is one that no possible path leads to; so a graph is reported as
not exhaustive if a leaf that fails has facts, and an arm as unreachable if no
node that takes it has facts. -/
theorem reachability_agrees (acyclic : graph.Acyclic) (types : TypeOracle) :
    (∀ id, id.index < graph.size →
        (id ∉ (graph.flow types).unreachable ↔ graph.Feasible id)) ∧
      (graph.coverage.nonExhaustive = true ↔
        ∃ id, graph.node? id = some .failure ∧ id ∉ (graph.flow types).unreachable) ∧
      (∀ arm < graph.armCount, arm ∈ graph.coverage.unreachableArms ↔
        ∀ id node, graph.node? id = some node → node.arm? = some arm →
          id ∈ (graph.flow types).unreachable) := by
  have agrees : ∀ id, id.index < graph.size →
      (id ∉ (graph.flow types).unreachable ↔ graph.Feasible id) := fun id inside => by
    rw [mem_unreachable_flow_iff acyclic types inside, not_not]
  refine ⟨agrees, ?_, ?_⟩
  · rw [nonExhaustive_iff]
    exact exists_congr fun id => and_congr_right fun found => (agrees id (node?_inside found)).symm
  · intro arm known
    rw [mem_unreachableArms_iff known]
    refine forall₃_congr fun id node found => imp_congr_right fun _ => ?_
    exact (mem_unreachable_flow_iff acyclic types (node?_inside found)).symm

/-- A graph with an edge that leaves it and a cycle that nothing leads to. -/
def detachedGraph : DecisionGraph where
  nodes := #[.test ⟨.root, .never⟩ ⟨1⟩ ⟨2⟩, .success 0 ⟨0⟩, .test ⟨.root, .nonNull⟩ ⟨9⟩ ⟨3⟩, .failure,
    .test ⟨.root, .nonNull⟩ ⟨4⟩ ⟨1⟩]
  root := ⟨0⟩
  table := .ofInput Hierarchy.object
  armCount := 1

theorem reachability_agrees_detachedGraph :
    detachedGraph.Acyclic ∧ detachedGraph.coverage.nonExhaustive = true ∧
      ∀ id, id.index < 5 → (detachedGraph.Feasible id ↔ id ∉ [⟨1⟩, ⟨4⟩]) := by
  have acyclic : detachedGraph.Acyclic := by decide
  have unreachable : (detachedGraph.flow Hierarchy.empty.oracle).unreachable = [⟨1⟩, ⟨4⟩] := by cbv
  obtain ⟨feasible, fails, _⟩ := reachability_agrees acyclic Hierarchy.empty.oracle
  rw [unreachable] at feasible fails
  exact ⟨acyclic, fails.mpr ⟨⟨3⟩, rfl, by decide⟩, fun id inside => (feasible id inside).symm⟩

end DecisionGraph

end MatchCompiler
