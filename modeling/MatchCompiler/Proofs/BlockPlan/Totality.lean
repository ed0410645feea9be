import MatchCompiler.Proofs.BlockPlan.Absorption
import MatchCompiler.Proofs.BlockPlan.Simulation

/-!
# When a graph can be laid out

A graph without cycles whose edges stay inside and whose guards have somewhere
to go when they reject can be laid out, whatever tables are made of it, unless a
table takes in a node that both edges of a comparison lead to: the table then
has an entry for a node without a block. Nothing of the kind happens where no
comparison that came out true is followed by one that it rules out.
-/

set_option autoImplicit false

namespace MatchCompiler

namespace BlockId

theorem isSome_of_fill (index : Nat) (entries : List (NodeId × Nat))
    (table : Array (Option BlockId)) (inside : index < table.size)
    (put : (table[index]?.join).isSome ∨ ∃ entry ∈ entries, entry.1.index = index) :
    ((entries.foldl (fun table entry => table.setIfInBounds entry.1.index (some ⟨entry.2⟩))
      table)[index]?.join).isSome := by
  induction entries generalizing table with
  | nil => simpa using put
  | cons entry rest ih =>
      rw [List.foldl_cons]
      apply ih _ (by simpa using inside)
      by_cases here : entry.1.index = index
      · subst here
        exact Or.inl (by simp [inside])
      · rw [Array.getElem?_setIfInBounds_ne here]
        simpa [here] using put

theorem exists_find {size : Nat} {kept : List NodeId} {node : NodeId} (member : node ∈ kept)
    (inside : node.index < size) : ∃ block, find (table size kept) node = .ok block := by
  obtain ⟨position, found⟩ := List.mem_iff_getElem?.mp member
  have filled := isSome_of_fill node.index kept.zipIdx (Array.replicate size none)
    (by simpa using inside)
    (Or.inr ⟨(node, position), List.mem_zipIdx_iff_getElem?.mpr found, rfl⟩)
  obtain ⟨block, isBlock⟩ := Option.isSome_iff_exists.mp filled
  exact ⟨block, find_eq_ok.mpr isBlock⟩

end BlockId

namespace DecisionGraph

/-- A comparison that came out true is not followed by one of the same value with
another constant. -/
def Pruned (graph : DecisionGraph) : Prop :=
  ∀ {id next other : NodeId} {subject : Temp} {link also : Link}, graph.Reaches graph.root id →
    graph.comparison? id = some (subject, link, next) →
    graph.comparison? link.target = some (subject, also, other) →
    link.constant.sameValue? also.constant ≠ some false

/-- What has to hold of the reachable nodes for a plan to make sense. -/
structure WellFormed (graph : DecisionGraph) : Prop where
  acyclic : graph.Acyclic
  inside : ∀ {source target : NodeId}, graph.Reaches graph.root source →
    graph.Edge source target → target.index < graph.size
  falls : ∀ {id accepted : NodeId} {rejected : Option NodeId} {arm : Nat} {label : Label}
    {bindings : List Binding} {condition : Guard}, graph.Reaches graph.root id →
    graph.node? id = some (.bind arm label bindings (some condition) accepted rejected) →
    rejected.isSome

/-- What is enough of the reachable nodes for a plan to exist. -/
structure Lowerable (graph : DecisionGraph) : Prop extends graph.WellFormed where
  pruned : graph.Pruned

/-- Both edges of a test lead to the same node. -/
def Doubled (graph : DecisionGraph) (source target : NodeId) : Prop :=
  ∃ asked, graph.node? source = some (.test asked target target)

/-- Both edges of a comparison lead to one with another constant. -/
structure DoubleLink (graph : DecisionGraph) (subject : Temp) (link also : Link) : Prop where
  compared : graph.comparison? link.node = some (subject, link, link.target)
  followed : ∃ other, graph.comparison? link.target = some (subject, also, other)
  apart : link.constant.sameValue? also.constant = some false

theorem DoubleLink.doubled {graph : DecisionGraph} {subject : Temp} {link also : Link}
    (double : graph.DoubleLink subject link also) : graph.Doubled link.node link.target :=
  ⟨_, (node?_of_comparison? double.compared).1⟩

theorem not_doubleLink {graph : DecisionGraph} (pruned : graph.Pruned) {subject : Temp}
    {link also : Link} (reached : graph.Reaches graph.root link.node) :
    ¬ graph.DoubleLink subject link also := by
  rintro ⟨compared, ⟨other, followed⟩, apart⟩
  exact pruned reached compared followed apart

end DecisionGraph

namespace Layout

variable {graph : DecisionGraph} {layout : Layout}

theorem Orderly.spared_edge {front : List NodeId} (orderly : Orderly graph front layout)
    {source target : NodeId} (free : layout.isAbsorbed source = false)
    (unchained : layout.chain? source = none) (edge : graph.Edge source target) :
    layout.isAbsorbed target = false := by
  cases absorbed : layout.isAbsorbed target with
  | false => rfl
  | true =>
      obtain ⟨head, chain, subject, before, link, held, isChain, inChain, _, rfl, _⟩ :=
        orderly.entersBy absorbed edge
      rcases isChain.node_eq_or_mem_tail inChain with isHead | inTail
      · rw [isHead, held] at unchained
        contradiction
      · have marked := (orderly.tails head chain held before inTail).1
        rw [free] at marked
        contradiction

variable (orderly : Orderly graph graph.topologicalOrder layout) {head : NodeId} {chain : Chain}
  (held : layout.chain? head = some chain)

include orderly held

theorem Orderly.reaches_head : graph.Reaches graph.root head :=
  ((graph.mem_topologicalOrder head).mp (orderly.heads head chain held).1).1

theorem Orderly.spared_default (acyclic : graph.Acyclic) :
    layout.isAbsorbed chain.default = false := by
  cases absorbed : layout.isAbsorbed chain.default with
  | false => rfl
  | true =>
      obtain ⟨_, isChain, notEmpty⟩ := orderly.grounded.chains head chain held
      obtain ⟨last, isLast, edge⟩ := isChain.exists_last notEmpty
      obtain ⟨other, otherChain, _, before, link, heldOther, _, inOther, inTail, same, isDefault, _⟩ :=
        orderly.entersBy absorbed edge
      obtain rfl := orderly.same_head heldOther held inOther isLast same
      obtain rfl := Option.some.inj (held.symm.trans heldOther)
      have inChain := List.mem_of_mem_tail inTail
      have cycle := isChain.transGen_default inChain
      rw [← isDefault] at cycle
      have reached := (orderly.reaches_head held).trans (isChain.reaches.2 link inChain).1
      exact absurd cycle (acyclic link.node reached)

/-- An entry of a table has a block, unless both edges of its link lead to the
next one. -/
theorem Orderly.doubleLink_of_target {link : Link} (member : link ∈ chain.links)
    (absorbed : layout.isAbsorbed link.target = true) :
    ∃ subject also, graph.DoubleLink subject link also := by
  obtain ⟨_, isChain, _⟩ := orderly.grounded.chains head chain held
  obtain ⟨next, compared⟩ := isChain.compared_of_mem member
  have edge : graph.Edge link.node link.target :=
    DecisionGraph.edge_of_node (DecisionGraph.node?_of_comparison? compared).1
      (by simp [Node.successors])
  obtain ⟨_, _, subject, before, also, _, isOther, _, inTail, _, isTarget, beforeCompared, apart⟩ :=
    orderly.entersBy absorbed edge
  obtain ⟨other, alsoCompared⟩ := isOther.compared_of_mem (List.mem_of_mem_tail inTail)
  rw [isTarget] at alsoCompared
  obtain rfl : before = link := by
    rw [compared] at beforeCompared
    cases beforeCompared
    rfl
  exact ⟨subject, also, beforeCompared, ⟨other, alsoCompared⟩, apart⟩

end Layout

namespace DecisionGraph

variable {graph : DecisionGraph} {minEntries : Nat}

theorem WellFormed.inside_of_transGen (wellFormed : graph.WellFormed) {source target : NodeId}
    (reached : graph.Reaches graph.root source) (path : Relation.TransGen graph.Edge source target) :
    target.index < graph.size := by
  cases path with
  | single edge => exact wellFormed.inside reached edge
  | tail front edge => exact wellFormed.inside (reached.trans front.to_reflTransGen) edge

theorem WellFormed.exists_find (wellFormed : graph.WellFormed) {source target : NodeId}
    (listed : source ∈ graph.topologicalOrder) (path : Relation.TransGen graph.Edge source target)
    (free : (Layout.plan graph minEntries graph.topologicalOrder).isAbsorbed target = false) :
    ∃ block, BlockId.find (BlockId.table graph.size (graph.kept minEntries)) target = .ok block := by
  have reached := ((graph.mem_topologicalOrder source).mp listed).1
  have inside := wellFormed.inside_of_transGen reached path
  have behind := (graph.mem_topologicalOrder target).mpr
    ⟨reached.trans path.to_reflTransGen, inside⟩
  exact BlockId.exists_find (List.mem_filter.mpr ⟨behind, by simp [free]⟩) inside

theorem exists_exit {blocks : Array (Option BlockId)} (id : NodeId) {node : Node}
    (found : ∀ next ∈ node.successors, ∃ block, BlockId.find blocks next = .ok block)
    (falls : ∀ {arm label bindings condition accepted rejected},
      node = .bind arm label bindings (some condition) accepted rejected → rejected.isSome) :
    ∃ exit, node.exit blocks id = .ok exit := by
  cases node with
  | access made next =>
      obtain ⟨block, isBlock⟩ := found next (by simp [Node.successors])
      exact ⟨_, by simp only [Node.exit, isBlock, ok_bind]; rfl⟩
  | test asked onTrue onFalse =>
      obtain ⟨trueBlock, isTrue⟩ := found onTrue (by simp [Node.successors])
      obtain ⟨falseBlock, isFalse⟩ := found onFalse (by simp [Node.successors])
      exact ⟨_, by simp only [Node.exit, isTrue, isFalse, ok_bind]; rfl⟩
  | bind arm label bindings guard accepted rejected =>
      obtain ⟨block, isBlock⟩ := found accepted (by simp [Node.successors])
      cases guard with
      | none => exact ⟨_, by simp only [Node.exit, isBlock, ok_bind]; rfl⟩
      | some condition =>
          obtain ⟨fallthrough, rfl⟩ := Option.isSome_iff_exists.mp (falls rfl)
          obtain ⟨other, isOther⟩ := found fallthrough (by simp [Node.successors])
          exact ⟨_, by simp only [Node.exit, isBlock, isOther, ok_bind]; rfl⟩
  | success arm label => exact ⟨_, rfl⟩
  | failure => exact ⟨_, rfl⟩

end DecisionGraph

theorem BlockId.find_eq_error {blocks : Array (Option BlockId)} {node : NodeId}
    {error : LowerError} (refused : find blocks node = .error error) :
    error = .missingBlock node ∧ ∀ block, find blocks node ≠ .ok block := by
  refine ⟨?_, fun block found => ?_⟩
  · unfold find at refused
    split at refused
    · contradiction
    · exact (Except.error.inj refused).symm
  · rw [refused] at found
    contradiction

theorem Chain.exit_eq_error {blocks : Array (Option BlockId)} {subject : Temp} {chain : Chain}
    {error : LowerError} (refused : chain.exit blocks subject = .error error) :
    (∃ link ∈ chain.links, BlockId.find blocks link.target = .error error) ∨
      BlockId.find blocks chain.default = .error error := by
  rcases bind_eq_error.mp refused with entryRefused | ⟨entries, _, rest⟩
  · obtain ⟨link, member, linkRefused⟩ := exists_of_mapM_eq_error entryRefused
    rcases bind_eq_error.mp linkRefused with missing | ⟨_, _, impossible⟩
    · exact Or.inl ⟨link, member, missing⟩
    · contradiction
  · rcases bind_eq_error.mp rest with missing | ⟨_, _, impossible⟩
    · exact Or.inr missing
    · contradiction

namespace DecisionGraph

variable {graph : DecisionGraph} {minEntries : Nat} {error : LowerError}

/-- A node that gets a block is refused only as the head of a table that takes in
a node which both edges of a link lead to. -/
theorem WellFormed.layOut_eq_error (wellFormed : graph.WellFormed) {id : NodeId}
    (member : id ∈ graph.kept minEntries)
    (refused : graph.layOut (Layout.plan graph minEntries graph.topologicalOrder)
      (BlockId.table graph.size (graph.kept minEntries)) id = .error error) :
    ∃ subject link also, graph.Reaches graph.root link.node ∧
      graph.DoubleLink subject link also ∧ error = .missingBlock link.target ∧
      (Layout.plan graph minEntries graph.topologicalOrder).isAbsorbed link.target = true := by
  obtain ⟨listed, isFree⟩ := List.mem_filter.mp member
  have free : (Layout.plan graph minEntries graph.topologicalOrder).isAbsorbed id = false := by
    simpa using isFree
  have orderly := Layout.orderly_plan wellFormed.acyclic minEntries
  obtain ⟨reached, inside⟩ := (graph.mem_topologicalOrder id).mp listed
  obtain ⟨node, found⟩ : ∃ node, graph.node? id = some node := ⟨_, Array.getElem?_eq_getElem inside⟩
  cases held : (Layout.plan graph minEntries graph.topologicalOrder).chain? id with
  | some chain =>
      obtain ⟨subject, isChain, notEmpty⟩ := orderly.grounded.chains id chain held
      obtain ⟨_, targets, default⟩ := isChain.reaches_beyond notEmpty
      cases isChain with
      | stop => exact absurd rfl notEmpty
      | link compared apart behind =>
          have isChain := IsChain.link compared apart behind
          obtain ⟨headFound, _⟩ := node?_of_comparison? compared
          unfold Layout.chain? at held
          simp only [layOut, headFound, held] at refused
          rcases bind_eq_error.mp refused with exitRefused | ⟨_, _, impossible⟩
          · rcases Chain.exit_eq_error exitRefused with ⟨link, inChain, missing⟩ | missing
            · obtain ⟨isMissing, unfound⟩ := BlockId.find_eq_error missing
              cases absorbed : (Layout.plan graph minEntries
                  graph.topologicalOrder).isAbsorbed link.target with
              | false =>
                  obtain ⟨block, isBlock⟩ :=
                    wellFormed.exists_find listed (targets link inChain) absorbed
                  exact absurd isBlock (unfound block)
              | true =>
                  obtain ⟨subject, also, double⟩ :=
                    orderly.doubleLink_of_target held inChain absorbed
                  exact ⟨subject, link, also, reached.trans (isChain.reaches.2 link inChain).1,
                    double, isMissing, absorbed⟩
            · obtain ⟨block, isBlock⟩ := wellFormed.exists_find listed default
                (orderly.spared_default held wellFormed.acyclic)
              exact absurd isBlock ((BlockId.find_eq_error missing).2 block)
          · contradiction
  | none =>
      obtain ⟨exit, left⟩ := exists_exit id
        (fun next isNext => wellFormed.exists_find listed (.single (edge_of_node found isNext))
          (orderly.spared_edge free held (edge_of_node found isNext)))
        (fun isGuard => wellFormed.falls reached (found.trans (congrArg some isGuard)))
      unfold Layout.chain? at held
      simp only [layOut, found, held, left, ok_bind] at refused
      contradiction

theorem WellFormed.lower_eq_error (wellFormed : graph.WellFormed)
    (refused : graph.lower minEntries = .error error) :
    ∃ subject link also, graph.Reaches graph.root link.node ∧
      graph.DoubleLink subject link also ∧ error = .missingBlock link.target ∧
      (Layout.plan graph minEntries graph.topologicalOrder).isAbsorbed link.target = true := by
  rcases bind_eq_error.mp refused with layOutRefused | ⟨_, _, impossible⟩
  · obtain ⟨id, member, nodeRefused⟩ := exists_of_mapM_eq_error layOutRefused
    exact wellFormed.layOut_eq_error member nodeRefused
  · contradiction

/-- A graph whose comparisons are pruned has a plan, whatever makes a table. -/
theorem Lowerable.exists_lower (lowerable : graph.Lowerable) (minEntries : Nat) :
    ∃ plan, graph.lower minEntries = .ok plan := by
  cases lowered : graph.lower minEntries with
  | ok plan => exact ⟨plan, rfl⟩
  | error error =>
      obtain ⟨_, _, _, reached, double, _, _⟩ := lowerable.toWellFormed.lower_eq_error lowered
      exact absurd double (not_doubleLink lowerable.pruned reached)

end DecisionGraph

end MatchCompiler
