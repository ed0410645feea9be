import MatchCompiler.Proofs.DecisionGraph.Order

/-!
# What the predecessors of a node are

The table of predecessors holds the edges of the graph, read backwards: for each
node, the nodes that have it as a successor, in storage order. A node with one
predecessor may still be entered by two edges, both out of that node.
-/

set_option autoImplicit false

namespace MatchCompiler

theorem nodup_eraseDups {α : Type} [BEq α] [LawfulBEq α] (list : List α) :
    list.eraseDups.Nodup := by
  match list with
  | [] => exact List.nodup_nil
  | first :: rest =>
      rw [List.eraseDups_cons, List.nodup_cons]
      exact ⟨by simp, nodup_eraseDups (rest.filter fun other => !other == first)⟩
termination_by list.length
decreasing_by exact Nat.lt_succ_of_le (List.length_filter_le _ rest)

namespace DecisionGraph

theorem mem_nodesWhere {graph : DecisionGraph} {property : Node → Bool} {id : NodeId} :
    id ∈ graph.nodesWhere property ↔
      ∃ node, graph.node? id = some node ∧ property node = true := by
  unfold nodesWhere node?
  simp only [List.mem_map, List.mem_filter, Prod.exists, List.mem_zipIdx_iff_getElem?,
    Array.getElem?_toList]
  constructor
  · rintro ⟨node, index, ⟨found, holds⟩, rfl⟩
    exact ⟨node, found, holds⟩
  · rintro ⟨node, found, holds⟩
    exact ⟨node, id.index, ⟨found, holds⟩, rfl⟩

theorem nodesWhere_ascending (graph : DecisionGraph) (property : Node → Bool) :
    (graph.nodesWhere property).Pairwise fun first second => first.index < second.index := by
  have numbered : (graph.nodes.toList.zipIdx.map Prod.snd).Pairwise (· < ·) := by
    rw [List.zipIdx_map_snd]
    exact List.pairwise_lt_range'
  unfold nodesWhere
  rw [List.pairwise_map]
  exact (List.pairwise_map.mp numbered).filter _

theorem nodup_nodesWhere (graph : DecisionGraph) (property : Node → Bool) :
    (graph.nodesWhere property).Nodup :=
  (graph.nodesWhere_ascending property).imp fun less same => absurd (same ▸ less) (Nat.lt_irrefl _)

/-- One node, put down at each of its successors. -/
theorem getElem?_enterAll (source : NodeId) (index : Nat) {targets : List NodeId}
    (distinct : targets.Nodup) (table : Array (List NodeId)) :
    (targets.foldl (fun table target => table.modify target.index (source :: ·)) table)[index]? =
      table[index]?.map fun list => if ⟨index⟩ ∈ targets then source :: list else list := by
  induction targets generalizing table with
  | nil => simp
  | cons target rest ih =>
      obtain ⟨apart, distinct⟩ := List.nodup_cons.mp distinct
      rw [List.foldl_cons, ih distinct, Array.getElem?_modify]
      by_cases here : target.index = index
      · subst here
        simp [apart, Function.comp_def]
      · have other : (⟨index⟩ : NodeId) ≠ target := fun same => here (by rw [← same])
        simp [here, other]

theorem getElem?_enterNodes (index : Nat) (entries : List (Node × Nat))
    (table : Array (List NodeId)) :
    (entries.foldl (fun table entry => entry.1.successors.eraseDups.foldl
        (fun table target => table.modify target.index (⟨entry.2⟩ :: ·)) table) table)[index]? =
      table[index]?.map fun list =>
        ((entries.filter fun entry => entry.1.successors.contains ⟨index⟩).map
          fun entry => ⟨entry.2⟩).reverse ++ list := by
  induction entries generalizing table with
  | nil => simp
  | cons entry rest ih =>
      rw [List.foldl_cons, ih, getElem?_enterAll _ _ (nodup_eraseDups _), Option.map_map]
      congr 1
      funext list
      by_cases leads : (⟨index⟩ : NodeId) ∈ entry.1.successors <;> simp [leads]

theorem getElem?_predecessors (graph : DecisionGraph) {index : Nat} (inside : index < graph.size) :
    graph.predecessors[index]? =
      some (graph.nodesWhere fun node => node.successors.contains ⟨index⟩) := by
  unfold predecessors nodesWhere
  rw [Array.getElem?_map, getElem?_enterNodes, Array.getElem?_replicate, if_pos inside]
  simp

theorem mem_predecessors {graph : DecisionGraph} {source target : NodeId} :
    source ∈ (graph.nodesWhere fun node => node.successors.contains target) ↔
      graph.Edge source target := by
  rw [mem_nodesWhere]
  constructor
  · rintro ⟨node, found, leads⟩
    exact edge_of_node found (List.contains_iff_mem.mp leads)
  · intro edge
    obtain ⟨node, found, member⟩ := exists_node_of_edge edge
    exact ⟨node, found, List.contains_iff_mem.mpr member⟩

theorem source_unique {graph : DecisionGraph} {first second target : NodeId}
    (single : graph.predecessors[target.index]?.map List.length = some 1)
    (inside : target.index < graph.size) (edge : graph.Edge first target)
    (other : graph.Edge second target) : first = second := by
  rw [graph.getElem?_predecessors inside, Option.map_some, Option.some.injEq] at single
  obtain ⟨only, isOnly⟩ := List.length_eq_one_iff.mp single
  have isFirst := mem_predecessors.mpr edge
  have isSecond := mem_predecessors.mpr other
  rw [isOnly] at isFirst isSecond
  rw [List.mem_singleton.mp isFirst, List.mem_singleton.mp isSecond]

theorem single_of_source {graph : DecisionGraph} {source target : NodeId}
    (inside : target.index < graph.size) (edge : graph.Edge source target)
    (only : ∀ other, graph.Edge other target → other = source) :
    graph.predecessors[target.index]?.map List.length = some 1 := by
  have isOnly : (graph.nodesWhere fun node => node.successors.contains target).Perm [source] := by
    refine (List.perm_ext_iff_of_nodup (graph.nodup_nodesWhere _) (List.pairwise_singleton _ _)).mpr ?_
    intro other
    rw [mem_predecessors, List.mem_singleton]
    exact ⟨only other, fun same => same ▸ edge⟩
  rw [graph.getElem?_predecessors inside, Option.map_some, isOnly.length_eq]
  rfl

end DecisionGraph

end MatchCompiler
