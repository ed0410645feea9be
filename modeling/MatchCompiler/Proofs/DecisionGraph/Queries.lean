import MatchCompiler.Proofs.Coverage.Witness
import MatchCompiler.Proofs.DecisionGraph.Predecessors
import MatchCompiler.Proofs.DecisionGraph.StackSearch

/-!
# What can be asked of any graph

The topological order, the table of predecessors and the list of reachable arms
are exact on every graph, be it with cycles, with edges that lead out of it, or
with a root that is not in it.
-/

set_option autoImplicit false

namespace MatchCompiler

theorem Node.arm?_eq_some_iff {node : Node} {arm : Nat} : node.arm? = some arm ↔
    (∃ label bindings guard accepted rejected,
        node = .bind arm label bindings guard accepted rejected) ∨
      ∃ label, node = .success arm label := by
  cases node <;> simp [arm?]

namespace DecisionGraph

variable {graph : DecisionGraph} {source target id : NodeId}

/-! ## The part of the graph that its edges do not leave -/

/-- An edge that does not leave the graph. -/
def InnerEdge (graph : DecisionGraph) (source target : NodeId) : Prop :=
  graph.Edge source target ∧ target.index < graph.size

/-- Nothing lies behind an edge that leaves the graph, so paths to its nodes have
none. -/
theorem transGen_innerEdge_iff (inside : target.index < graph.size) :
    Relation.TransGen graph.InnerEdge source target ↔
      Relation.TransGen graph.Edge source target := by
  constructor
  · exact fun path => path.lift id fun _ _ edge => edge.1
  · intro path
    induction path with
    | single edge => exact .single ⟨edge, inside⟩
    | tail _ edge ih => exact (ih edge.source_inside).tail ⟨edge, inside⟩

theorem reaches_inside_iff : graph.Reaches graph.root id ∧ id.index < graph.size ↔
    graph.root.index < graph.size ∧ Relation.ReflTransGen graph.InnerEdge graph.root id := by
  simp only [Reaches, Relation.reflTransGen_iff_eq_or_transGen]
  constructor
  · rintro ⟨rfl | path, inside⟩
    · exact ⟨inside, Or.inl rfl⟩
    · obtain ⟨_, first, _⟩ := Relation.TransGen.head'_iff.mp path
      exact ⟨first.source_inside, Or.inr ((transGen_innerEdge_iff inside).mpr path)⟩
  · rintro ⟨rootInside, rfl | path⟩
    · exact ⟨Or.inl rfl, rootInside⟩
    · obtain ⟨_, _, last⟩ := Relation.TransGen.tail'_iff.mp path
      exact ⟨Or.inr ((transGen_innerEdge_iff last.2).mp path), last.2⟩

/-! ## The order -/

/-- A list of the nodes that can be reached from the root inside the graph, in an
order that its edges follow unless there is a cycle among them. -/
structure OrdersReachable (graph : DecisionGraph) (order : List NodeId) : Prop where
  once : order.Nodup
  listed : ∀ id, id ∈ order ↔
    graph.root.index < graph.size ∧ Relation.ReflTransGen graph.InnerEdge graph.root id
  rootFirst : graph.root.index < graph.size → order.head? = some graph.root
  onward : (∀ id ∈ order, ¬ Relation.TransGen graph.InnerEdge id id) →
    ∀ (before after : Nat) (source target : NodeId), order[before]? = some source →
      order[after]? = some target → target ∈ graph.successors source → before < after

theorem acyclic_of_inner
    (inner : ∀ id ∈ graph.topologicalOrder, ¬ Relation.TransGen graph.InnerEdge id id) :
    graph.Acyclic := by
  intro id reachable cycle
  obtain ⟨_, first, _⟩ := Relation.TransGen.head'_iff.mp cycle
  have inside := first.source_inside
  apply inner id ((graph.mem_topologicalOrder id).mpr ⟨reachable, inside⟩)
  exact (transGen_innerEdge_iff inside).mpr cycle

theorem rank_eq_of_getElem? {position : Nat} (found : graph.topologicalOrder[position]? = some id) :
    graph.rank id = position := by
  obtain ⟨inside, rfl⟩ := List.getElem?_eq_some_iff.mp found
  exact List.Nodup.idxOf_getElem graph.nodup_topologicalOrder position inside

theorem ordersReachable (graph : DecisionGraph) : graph.OrdersReachable graph.topologicalOrder where
  once := graph.nodup_topologicalOrder
  listed := fun id => (graph.mem_topologicalOrder id).trans reaches_inside_iff
  rootFirst := graph.head?_topologicalOrder
  onward := by
    intro inner before after source target isSource isTarget edge
    have member : source ∈ graph.topologicalOrder := List.mem_of_getElem? isSource
    have inside := ((graph.mem_topologicalOrder target).mp (List.mem_of_getElem? isTarget)).2
    have rises := rank_lt_of_edge (acyclic_of_inner inner) member edge inside
    rwa [rank_eq_of_getElem? isSource, rank_eq_of_getElem? isTarget] at rises

/-! ## The edges backwards -/

/-- A table of the nodes with an edge into each node, in storage order. -/
structure ListsPredecessors (graph : DecisionGraph) (table : Array (List NodeId)) : Prop where
  sized : table.size = graph.size
  listed : ∀ (target : NodeId) (sources : List NodeId), table[target.index]? = some sources →
    ∀ source, source ∈ sources ↔ target ∈ graph.successors source
  ascending : ∀ (index : Nat) (sources : List NodeId), table[index]? = some sources →
    sources.Pairwise fun first second => first.index < second.index

theorem size_enterNodes (entries : List (Node × Nat)) (table : Array (List NodeId)) :
    (entries.foldl (fun table entry => entry.1.successors.eraseDups.foldl
        (fun table target => table.modify target.index (⟨entry.2⟩ :: ·)) table) table).size =
      table.size := by
  have sizeTargets : ∀ (source : NodeId) (targets : List NodeId) (table : Array (List NodeId)),
      (targets.foldl (fun table target => table.modify target.index (source :: ·)) table).size =
        table.size := by
    intro source targets
    induction targets with
    | nil => exact fun _ => rfl
    | cons target rest ih =>
        intro table
        rw [List.foldl_cons, ih, Array.size_modify]
  induction entries generalizing table with
  | nil => rfl
  | cons entry rest ih => rw [List.foldl_cons, ih, sizeTargets]

theorem listsPredecessors (graph : DecisionGraph) :
    graph.ListsPredecessors graph.predecessors := by
  have sized : graph.predecessors.size = graph.size := by
    unfold predecessors
    rw [Array.size_map, size_enterNodes, Array.size_replicate]
  have isList : ∀ {index : Nat} {sources : List NodeId},
      graph.predecessors[index]? = some sources →
        sources = graph.nodesWhere fun node => node.successors.contains ⟨index⟩ := by
    intro index sources found
    have inside := (Array.getElem?_eq_some_iff.mp found).1
    rw [sized] at inside
    exact Option.some.inj (found.symm.trans (graph.getElem?_predecessors inside))
  refine ⟨sized, ?_, ?_⟩
  · intro target sources found source
    rw [isList found]
    exact mem_predecessors
  · intro index sources found
    rw [isList found]
    exact graph.nodesWhere_ascending _

/-! ## The arms -/

/-- A list of the arms that nodes of an order take. -/
structure ListsArms (graph : DecisionGraph) (order : List NodeId) (arms : List Nat) : Prop where
  listed : ∀ arm, arm ∈ arms ↔ arm < graph.armCount ∧ ∃ id ∈ order,
    (∃ label bindings guard accepted rejected,
        graph.node? id = some (.bind arm label bindings guard accepted rejected)) ∨
      ∃ label, graph.node? id = some (.success arm label)
  ascending : arms.Pairwise (· < ·)

theorem listsArms (graph : DecisionGraph) :
    graph.ListsArms graph.topologicalOrder graph.reachableArms where
  listed := by
    intro arm
    have takes : ∀ id, (graph.node? id).bind Node.arm? = some arm ↔
        (∃ label bindings guard accepted rejected,
            graph.node? id = some (.bind arm label bindings guard accepted rejected)) ∨
          ∃ label, graph.node? id = some (.success arm label) := by
      intro id
      cases graph.node? id with
      | none => simp
      | some node => simpa using Node.arm?_eq_some_iff
    simp [reachableArms, takes]
  ascending := List.Pairwise.filter _ List.pairwise_lt_range

/-! ## All of them -/

/-- On any graph the topological order lists what can be reached from the root
without leaving the graph, each node once, the root first, and the source of an
edge before its target where no cycle forbids it; a search that keeps a stack
comes to the same order. The predecessors of a node are the nodes that have it as
a successor, and the reachable arms those that listed nodes take. -/
theorem queries_exact (graph : DecisionGraph) :
    graph.OrdersReachable graph.topologicalOrder ∧
      graph.stackOrder = graph.topologicalOrder ∧
      graph.ListsPredecessors graph.predecessors ∧
      graph.ListsArms graph.topologicalOrder graph.reachableArms :=
  ⟨graph.ordersReachable, graph.stackOrder_eq, graph.listsPredecessors, graph.listsArms⟩

/-- The cycle is cut where it closes, and the edge that leaves the graph is left out. -/
theorem queries_exact_windingGraph :
    windingGraph.stackOrder = [⟨0⟩, ⟨2⟩, ⟨3⟩, ⟨4⟩, ⟨6⟩, ⟨1⟩, ⟨5⟩] ∧
      Relation.ReflTransGen windingGraph.InnerEdge windingGraph.root ⟨6⟩ ∧
      (∀ source, source ∈ ([⟨1⟩, ⟨4⟩] : List NodeId) ↔ ⟨5⟩ ∈ windingGraph.successors source) ∧
      windingGraph.reachableArms = [0] := by
  obtain ⟨order, sameOrder, predecessors, _⟩ := queries_exact windingGraph
  have listed : windingGraph.topologicalOrder = [⟨0⟩, ⟨2⟩, ⟨3⟩, ⟨4⟩, ⟨6⟩, ⟨1⟩, ⟨5⟩] := by decide
  refine ⟨sameOrder.trans listed, ?_, ?_, by decide⟩
  · exact ((order.listed ⟨6⟩).mp (by rw [listed]; decide)).2
  · exact predecessors.listed ⟨5⟩ [⟨1⟩, ⟨4⟩] (by cbv)

end DecisionGraph

end MatchCompiler
