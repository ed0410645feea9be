import MatchCompiler.BlockPlan.Lowering
import MatchCompiler.Proofs.Value
import MatchCompiler.Proofs.Walk

/-!
# Chains of comparisons

A chain that becomes a jump table is a path of failed comparisons through the
graph. A walk along it ends where the table leads, and since the constants
differ no value equals two of them.
-/

set_option autoImplicit false

namespace MatchCompiler

namespace DecisionGraph

theorem node?_of_comparison? {graph : DecisionGraph} {id next : NodeId} {subject : Temp}
    {link : Link} (compared : graph.comparison? id = some (subject, link, next)) :
    graph.node? id = some (.test ⟨subject, .equals link.constant⟩ link.target next) ∧
      link.node = id := by
  unfold comparison? at compared
  split at compared
  · rename_i found
    split at compared
    · simp only [Option.some.injEq, Prod.mk.injEq] at compared
      obtain ⟨rfl, rfl, rfl⟩ := compared
      exact ⟨found, rfl⟩
    · contradiction
  · contradiction

theorem isSwitchable_of_comparison? {graph : DecisionGraph} {id next : NodeId} {subject : Temp}
    {link : Link} (compared : graph.comparison? id = some (subject, link, next)) :
    link.constant.isSwitchable = true := by
  unfold comparison? at compared
  split at compared
  · split at compared
    · rename_i fit
      simp only [Option.some.injEq, Prod.mk.injEq] at compared
      obtain ⟨_, rfl, _⟩ := compared
      exact fit
    · contradiction
  · contradiction

/-- Comparisons of `subject` one after the other, from a node on, with constants
that differ from `constants` and from each other. -/
inductive IsChain (graph : DecisionGraph) (subject : Temp) : List Const → NodeId → Chain → Prop
  | stop (constants : List Const) (current : NodeId) :
      IsChain graph subject constants current ⟨[], current⟩
  | link {constants : List Const} {current next : NodeId} {link : Link} {rest : Chain}
      (compared : graph.comparison? current = some (subject, link, next))
      (apart : ∀ constant ∈ constants, constant.sameValue? link.constant = some false)
      (behind : IsChain graph subject (constants ++ [link.constant]) next rest) :
      IsChain graph subject constants current ⟨link :: rest.links, rest.default⟩

end DecisionGraph

namespace Layout

variable {graph : DecisionGraph} {predecessors : Array (List NodeId)} {layout : Layout}

theorem follow_isChain (subject : Temp) (fuel : Nat) :
    ∀ (constants : List Const) (current : NodeId), graph.IsChain subject constants current
      (follow graph predecessors layout subject fuel constants current) := by
  induction fuel with
  | zero => exact fun constants current => .stop constants current
  | succ fuel ih =>
      intro constants current
      rw [follow]
      cases compared : graph.comparison? current with
      | none => exact .stop constants current
      | some comparison =>
          obtain ⟨other, link, next⟩ := comparison
          dsimp only
          split
          · rename_i joins
            obtain ⟨rfl, _, apart, _⟩ := joins
            exact .link compared apart (ih _ next)
          · exact .stop constants current

theorem chainFrom?_isChain {head : NodeId} {chain : Chain}
    (found : layout.chainFrom? graph predecessors head = some chain) :
    ∃ subject, graph.IsChain subject [] head chain ∧ chain.links ≠ [] := by
  unfold chainFrom? at found
  obtain ⟨⟨subject, link, next⟩, compared, rfl⟩ := Option.map_eq_some_iff.mp found
  exact ⟨subject, .link compared (by simp) (follow_isChain subject _ _ next), by simp⟩

end Layout

namespace Chain

def exitFor (chain : Chain) (value : Value) : NodeId :=
  ((chain.links.find? fun link => value.equals link.constant).map (·.target)).getD chain.default

end Chain

namespace DecisionGraph.IsChain

variable {graph : DecisionGraph} {subject : Temp} {constants : List Const} {current : NodeId}
  {chain : Chain}

theorem reaches (isChain : graph.IsChain subject constants current chain) :
    graph.Reaches current chain.default ∧
      ∀ link ∈ chain.links, graph.Reaches current link.node ∧
        Relation.TransGen graph.Edge current link.target := by
  induction isChain with
  | stop constants current => exact ⟨.refl, by simp⟩
  | link compared apart behind ih =>
      rename_i current next link rest
      obtain ⟨found, isHead⟩ := node?_of_comparison? compared
      have onward : graph.Edge current next := edge_of_node found (by simp [Node.successors])
      refine ⟨.head onward ih.1, ?_⟩
      intro other member
      rcases List.mem_cons.mp member with rfl | inRest
      · exact ⟨by rw [isHead]; exact .refl,
          .single (edge_of_node found (by simp [Node.successors]))⟩
      · exact ⟨.head onward (ih.2 other inRest).1, .head onward (ih.2 other inRest).2⟩

theorem reaches_beyond (isChain : graph.IsChain subject constants current chain)
    (notEmpty : chain.links ≠ []) :
    (∀ link ∈ chain.links.tail, Relation.TransGen graph.Edge current link.node) ∧
      (∀ link ∈ chain.links, Relation.TransGen graph.Edge current link.target) ∧
      Relation.TransGen graph.Edge current chain.default := by
  refine ⟨?_, fun link member => (isChain.reaches.2 link member).2, ?_⟩
  all_goals
    cases isChain with
    | stop => exact absurd rfl notEmpty
    | link compared apart behind =>
        obtain ⟨found, _⟩ := node?_of_comparison? compared
        have onward : graph.Edge current _ := edge_of_node found
          (List.mem_cons_of_mem _ List.mem_cons_self)
        first
          | exact fun link member => .head' onward (behind.reaches.2 link member).1
          | exact .head' onward behind.reaches.1

theorem transGen_exitFor (isChain : graph.IsChain subject constants current chain)
    (notEmpty : chain.links ≠ []) (value : Value) :
    Relation.TransGen graph.Edge current (chain.exitFor value) := by
  obtain ⟨_, targets, default⟩ := isChain.reaches_beyond notEmpty
  unfold Chain.exitFor
  cases hit : chain.links.find? fun link => value.equals link.constant with
  | none => exact default
  | some link => exact targets link (List.mem_of_find?_eq_some hit)

/-- A walk along a chain goes where the first constant that equals the value
says. -/
theorem ends (isChain : graph.IsChain subject constants current chain)
    {isInstance : Value → Ty → Bool} {oracle : GuardOracle} {progress : Progress} {value : Value} {run : Run}
    (filled : progress.slots.get? subject = some value)
    (behind : graph.Ends isInstance oracle (chain.exitFor value) progress run) :
    graph.Ends isInstance oracle current progress run := by
  induction isChain with
  | stop constants current => exact behind
  | link compared apart following ih =>
      rename_i constants current next link rest
      obtain ⟨found, _⟩ := node?_of_comparison? compared
      have advanced : ∀ taken, taken = (if value.equals link.constant then link.target else next) →
          Node.advanceBy graph.table isInstance oracle progress
            (.test ⟨subject, .equals link.constant⟩ link.target next) = .proceed taken progress := by
        rintro taken rfl
        simp only [Node.advanceBy, Advance.choose, Slots.read, filled]
        rfl
      cases equal : value.equals link.constant with
      | true =>
          have exit : Chain.exitFor ⟨link :: rest.links, rest.default⟩ value = link.target := by
            simp [Chain.exitFor, equal]
          rw [exit] at behind
          exact .proceed found (advanced link.target (by simp [equal])) behind
      | false =>
          have exit : Chain.exitFor ⟨link :: rest.links, rest.default⟩ value =
              rest.exitFor value := by
            simp [Chain.exitFor, equal]
          rw [exit] at behind
          exact .proceed found (advanced next (by simp [equal])) (ih behind)

theorem constants_apart (isChain : graph.IsChain subject constants current chain) :
    chain.links.Pairwise (fun first second =>
        first.constant.sameValue? second.constant = some false) ∧
      ∀ constant ∈ constants, ∀ link ∈ chain.links,
        constant.sameValue? link.constant = some false := by
  induction isChain with
  | stop constants current => simp
  | link compared apart behind ih =>
      rename_i constants current next link rest
      refine ⟨List.pairwise_cons.mpr ⟨?_, ih.1⟩, ?_⟩
      · exact fun other member => ih.2 link.constant (by simp) other member
      · intro constant early other member
        rcases List.mem_cons.mp member with rfl | inRest
        · exact apart constant early
        · exact ih.2 constant (List.mem_append_left _ early) other inRest

theorem constants_differ (isChain : graph.IsChain subject constants current chain) :
    chain.links.Pairwise (fun first second => ∀ value : Value,
        value.equals first.constant = true → value.equals second.constant = false) ∧
      ∀ constant ∈ constants, ∀ link ∈ chain.links, ∀ value : Value,
        value.equals constant = true → value.equals link.constant = false := by
  obtain ⟨among, before⟩ := isChain.constants_apart
  exact ⟨among.imp fun apart _ equal => Value.equals_of_sameValue? equal apart,
    fun constant early link member _ equal =>
      Value.equals_of_sameValue? equal (before constant early link member)⟩

theorem pairwise_transGen (isChain : graph.IsChain subject constants current chain) :
    chain.links.Pairwise fun first second =>
      Relation.TransGen graph.Edge first.node second.node := by
  induction isChain with
  | stop => exact List.Pairwise.nil
  | link compared _ behind ih =>
      obtain ⟨found, isHead⟩ := node?_of_comparison? compared
      have onward : graph.Edge _ _ := edge_of_node found (List.mem_cons_of_mem _ List.mem_cons_self)
      refine List.pairwise_cons.mpr ⟨fun other member => ?_, ih⟩
      rw [isHead]
      exact .head' onward (behind.reaches.2 other member).1

end DecisionGraph.IsChain

/-! ## What a layout holds -/

/-- The chains that were taken in are chains of the graph, and the absorbed nodes
lie behind listed ones. -/
structure Layout.Grounded (graph : DecisionGraph) (layout : Layout) : Prop where
  chains : ∀ (id : NodeId) (chain : Chain), layout.chains[id.index]?.join = some chain →
    ∃ subject, graph.IsChain subject [] id chain ∧ chain.links ≠ []
  absorbed : ∀ id, layout.isAbsorbed id = true →
    ∃ head ∈ graph.topologicalOrder, Relation.TransGen graph.Edge head id

namespace Layout

theorem mem_of_absorbed (links : List Link) (index : Nat) :
    ∀ absorbed : Array Bool,
      (links.foldl (fun absorbed link => absorbed.setIfInBounds link.node.index true)
        absorbed)[index]? = some true →
      absorbed[index]? = some true ∨ ∃ link ∈ links, link.node.index = index := by
  induction links with
  | nil => exact fun absorbed marked => Or.inl marked
  | cons link rest ih =>
      intro absorbed marked
      rcases ih _ marked with before | ⟨other, inRest, same⟩
      · by_cases same : link.node.index = index
        · exact Or.inr ⟨link, List.mem_cons_self, same⟩
        · rw [Array.getElem?_setIfInBounds_ne same] at before
          exact Or.inl before
      · exact Or.inr ⟨other, List.mem_cons_of_mem _ inRest, same⟩

theorem Grounded.empty (graph : DecisionGraph) : Grounded graph (.empty graph) where
  chains := by
    intro id chain found
    by_cases inside : id.index < graph.size <;> simp [Layout.empty, inside] at found
  absorbed := by
    intro id marked
    simp [isAbsorbed, Layout.empty, Array.getElem?_replicate] at marked

theorem Grounded.absorb {graph : DecisionGraph} {layout : Layout} (grounded : Grounded graph layout)
    {predecessors : Array (List NodeId)} {minEntries : Nat} {head : NodeId}
    (member : head ∈ graph.topologicalOrder) :
    Grounded graph (layout.absorb graph predecessors minEntries head) := by
  unfold Layout.absorb
  split
  · exact grounded
  cases found : layout.chainFrom? graph predecessors head with
  | none => exact grounded
  | some chain =>
      dsimp only
      split
      · exact grounded
      obtain ⟨subject, isChain, notEmpty⟩ := chainFrom?_isChain found
      refine ⟨?_, ?_⟩
      · intro id other stored
        by_cases same : head.index = id.index
        · obtain rfl : head = id := by cases head; cases id; simp_all
          by_cases inside : head.index < layout.chains.size
          · simp [inside] at stored
            exact ⟨subject, stored ▸ isChain, stored ▸ notEmpty⟩
          · simp [inside] at stored
        · rw [Array.getElem?_setIfInBounds_ne same] at stored
          exact grounded.chains id other stored
      · intro id marked
        rcases mem_of_absorbed chain.links.tail id.index layout.absorbed
          (by simpa [isAbsorbed] using marked) with before | ⟨link, inTail, same⟩
        · exact grounded.absorbed id (by simp [isAbsorbed, before])
        · obtain rfl : link.node = id := by cases id; cases linkNode : link.node; simp_all
          exact ⟨head, member, (isChain.reaches_beyond notEmpty).1 link inTail⟩

theorem plan_grounded (graph : DecisionGraph) (minEntries : Nat) :
    Grounded graph (plan graph minEntries graph.topologicalOrder) := by
  have kept : ∀ (order : List NodeId) (layout : Layout), (∀ id ∈ order, id ∈ graph.topologicalOrder) →
      Grounded graph layout →
      Grounded graph (order.foldl (absorb graph graph.predecessors minEntries) layout) := by
    intro order
    induction order with
    | nil => exact fun layout _ grounded => grounded
    | cons head rest ih =>
        intro layout listed grounded
        exact ih _ (fun id member => listed id (List.mem_cons_of_mem _ member))
          (grounded.absorb (listed head List.mem_cons_self))
  exact kept graph.topologicalOrder _ (fun _ member => member) (Grounded.empty graph)

end Layout

end MatchCompiler
