import MatchCompiler.Proofs.BlockPlan.Totality

/-!
# When laying out a graph fails

The predecessors of a node are listed without repetition, so a test both of
whose edges lead to a node counts as one way into it. A table that takes such a
node in leaves the edge of the positive answer without a block. A graph that
makes sense is refused for this reason and for no other.
-/

set_option autoImplicit false

namespace MatchCompiler

namespace DecisionGraph

variable {graph : DecisionGraph} {plan : BlockPlan} {minEntries : Nat} {source target : NodeId}

/-- Where a graph was laid out, no table has taken in a node that both edges of a
test lead to: the link before it is an entry of the table, whose target has a
block. -/
theorem spared_of_lower (acyclic : graph.Acyclic) (lowered : graph.lower minEntries = .ok plan)
    (doubled : graph.Doubled source target) :
    (Layout.plan graph minEntries graph.topologicalOrder).isAbsorbed target = false := by
  cases absorbed : (Layout.plan graph minEntries graph.topologicalOrder).isAbsorbed target with
  | false => rfl
  | true =>
      have orderly := Layout.orderly_plan acyclic minEntries
      obtain ⟨asked, found⟩ := doubled
      obtain ⟨head, chain, subject, before, _, held, _, inChain, _, _, _, compared, _⟩ :=
        orderly.entersBy absorbed (edge_of_node found (by simp [Node.successors]))
      have isTarget : before.target = target := by
        obtain ⟨stored, _⟩ := node?_of_comparison? compared
        cases stored.symm.trans found
        rfl
      -- the head of the table has a block, hence so has every entry
      obtain ⟨listed, headFree⟩ := orderly.heads head chain held
      have headKept : head ∈ graph.kept minEntries :=
        List.mem_filter.mpr ⟨listed, by simp [headFree]⟩
      obtain ⟨block, _, laidOut⟩ := exists_mem_of_forall₂ (lower_eq_ok lowered) headKept
      obtain ⟨_, _, _, ⟨_, _, stored, _, _, left⟩ | ⟨unstored, _⟩⟩ :=
        layOut_cases orderly.grounded laidOut
      · obtain rfl := Option.some.inj (held.symm.trans stored)
        obtain ⟨entries, _, _, paired, _⟩ := Chain.exists_entries left
        obtain ⟨entry, _, _, entered⟩ := exists_mem_of_forall₂ paired inChain
        have targetKept := mem_kept_of_find entered
        rw [isTarget] at targetKept
        simpa [absorbed] using (List.mem_filter.mp targetKept).2
      · cases held.symm.trans unstored

/-- A graph without cycles whose edges stay inside and whose guards have
somewhere to go can be laid out exactly if no table takes in a node that both
edges of a test lead to. If it cannot, it is the edge to such a node that is
reported. -/
theorem WellFormed.lower_outcome (wellFormed : graph.WellFormed) (minEntries : Nat) :
    ((∃ plan, graph.lower minEntries = .ok plan) ↔
        ∀ source target, graph.Doubled source target →
          (Layout.plan graph minEntries graph.topologicalOrder).isAbsorbed target = false) ∧
      ∀ error, graph.lower minEntries = .error error →
        ∃ source target, graph.Reaches graph.root source ∧ graph.Doubled source target ∧
          error = .missingBlock target := by
  refine ⟨⟨?_, ?_⟩, ?_⟩
  · rintro ⟨plan, lowered⟩ source target doubled
    exact spared_of_lower wellFormed.acyclic lowered doubled
  · intro spared
    cases lowered : graph.lower minEntries with
    | ok plan => exact ⟨plan, rfl⟩
    | error error =>
        obtain ⟨_, _, _, _, double, _, absorbed⟩ := wellFormed.lower_eq_error lowered
        rw [spared _ _ double.doubled] at absorbed
        contradiction
  · intro error refused
    obtain ⟨_, _, _, reached, double, isMissing, _⟩ := wellFormed.lower_eq_error refused
    exact ⟨_, _, reached, double.doubled, isMissing⟩

/-- Three comparisons in a row, the first of which leads to the second one
whatever its answer. -/
def doubledGraph : DecisionGraph where
  nodes := #[.success 0 ⟨0⟩, .success 1 ⟨1⟩, .failure,
    .test ⟨.root, .equals (.int 3)⟩ ⟨1⟩ ⟨2⟩, .test ⟨.root, .equals (.int 2)⟩ ⟨0⟩ ⟨3⟩,
    .test ⟨.root, .equals (.int 1)⟩ ⟨4⟩ ⟨4⟩]
  root := ⟨5⟩
  table := .ofInput Hierarchy.object
  armCount := 2

theorem wellFormed_doubledGraph : doubledGraph.WellFormed := by
  have descending : Descending doubledGraph.nodes := by decide
  refine ⟨acyclic_of_descending descending, ?_, ?_⟩
  · intro source target _ edge
    obtain ⟨node, found, member⟩ := exists_node_of_edge edge
    exact (descending _ node found target member).trans edge.source_inside
  · intro id accepted rejected arm label bindings condition _ found
    have unguarded := Array.mem_of_getElem? found
    simp [doubledGraph] at unguarded

theorem lower_doubledGraph : doubledGraph.lower 3 = .error (.missingBlock ⟨4⟩) := by cbv

/-- A graph that makes sense need not have a plan. -/
theorem not_lower_of_wellFormed :
    doubledGraph.root.index < doubledGraph.size ∧ doubledGraph.WellFormed ∧
      ¬ ∃ plan, doubledGraph.lower 3 = .ok plan := by
  refine ⟨by decide, wellFormed_doubledGraph, ?_⟩
  rintro ⟨plan, lowered⟩
  cases lower_doubledGraph.symm.trans lowered

/-- It has one if four constants make a table; where three do, the node of the
second comparison is reported. -/
theorem lower_outcome_doubledGraph :
    doubledGraph.WellFormed ∧ (∃ plan, doubledGraph.lower 4 = .ok plan) ∧
      ∃ source target, doubledGraph.Reaches doubledGraph.root source ∧
        doubledGraph.Doubled source target ∧
        LowerError.missingBlock ⟨4⟩ = .missingBlock target := by
  refine ⟨wellFormed_doubledGraph, (wellFormed_doubledGraph.lower_outcome 4).1.mpr ?_,
    (wellFormed_doubledGraph.lower_outcome 3).2 _ lower_doubledGraph⟩
  rintro source target ⟨asked, found⟩
  have member := Array.mem_of_getElem? found
  obtain ⟨_, rfl⟩ : asked = ⟨.root, .equals (.int 1)⟩ ∧ target = ⟨4⟩ := by
    simp [doubledGraph] at member
    grind
  cbv

end DecisionGraph

end MatchCompiler
