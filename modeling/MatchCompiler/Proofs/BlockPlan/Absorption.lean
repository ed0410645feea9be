import MatchCompiler.Proofs.BlockPlan.Chain
import MatchCompiler.Proofs.DecisionGraph.Predecessors

/-!
# What jump tables take in

Every node that is absorbed is a link of one jump table only, and the only node
with an edge to it is the link before it. Since the nodes are looked at in
topological order, the head of a table is never absorbed by another one.
-/

set_option autoImplicit false

namespace MatchCompiler

/-! ## Links of a chain -/

namespace DecisionGraph.IsChain

variable {graph : DecisionGraph} {subject : Temp} {constants : List Const} {current : NodeId}
  {chain : Chain} {link : Link}

theorem compared_of_mem (isChain : graph.IsChain subject constants current chain)
    (member : link ∈ chain.links) :
    ∃ next, graph.comparison? link.node = some (subject, link, next) := by
  induction isChain with
  | stop => exact absurd member List.not_mem_nil
  | @link _ current next first rest compared _ _ ih =>
      rcases List.mem_cons.mp member with rfl | inRest
      · exact ⟨next, by rw [(node?_of_comparison? compared).2]; exact compared⟩
      · exact ih inRest

theorem node_eq_or_mem_tail (isChain : graph.IsChain subject constants current chain)
    (member : link ∈ chain.links) : link.node = current ∨ link ∈ chain.links.tail := by
  cases isChain with
  | stop => exact absurd member List.not_mem_nil
  | link compared _ _ =>
      rcases List.mem_cons.mp member with rfl | inRest
      · exact Or.inl (node?_of_comparison? compared).2
      · exact Or.inr inRest

/-- A link that is not the first one is entered by the failure of the link before
it, which compares with another constant. -/
theorem exists_before (isChain : graph.IsChain subject constants current chain)
    (member : link ∈ chain.links.tail) :
    ∃ before ∈ chain.links, graph.comparison? before.node = some (subject, before, link.node) ∧
      before.constant.sameValue? link.constant = some false := by
  induction isChain with
  | stop => exact absurd member List.not_mem_nil
  | @link _ current next first rest compared _ behind ih =>
      cases behind with
      | stop => exact absurd member List.not_mem_nil
      | @link _ _ _ second rest secondCompared apart _ =>
          rcases List.mem_cons.mp member with rfl | inRest
          · refine ⟨first, List.mem_cons_self, ?_, apart first.constant (by simp)⟩
            rw [(node?_of_comparison? compared).2, (node?_of_comparison? secondCompared).2]
            exact compared
          · obtain ⟨before, inChain, follows⟩ := ih inRest
            exact ⟨before, List.mem_cons_of_mem _ inChain, follows⟩

theorem exists_last (isChain : graph.IsChain subject constants current chain)
    (notEmpty : chain.links ≠ []) : ∃ last ∈ chain.links, graph.Edge last.node chain.default := by
  induction isChain with
  | stop => exact absurd rfl notEmpty
  | @link _ current next first rest compared _ behind ih =>
      obtain ⟨found, isHead⟩ := node?_of_comparison? compared
      by_cases isLast : rest.links = []
      · refine ⟨first, List.mem_cons_self, ?_⟩
        cases behind with
        | stop =>
            rw [isHead]
            exact edge_of_node found (by simp [Node.successors])
        | link => simp at isLast
      · obtain ⟨last, inRest, edge⟩ := ih isLast
        exact ⟨last, List.mem_cons_of_mem _ inRest, edge⟩

theorem transGen_default (isChain : graph.IsChain subject constants current chain)
    (member : link ∈ chain.links) : Relation.TransGen graph.Edge link.node chain.default := by
  induction isChain with
  | stop => exact absurd member List.not_mem_nil
  | @link _ current next first rest compared _ behind ih =>
      rcases List.mem_cons.mp member with rfl | inRest
      · obtain ⟨found, isHead⟩ := node?_of_comparison? compared
        rw [isHead]
        exact .head' (edge_of_node found (by simp [Node.successors])) behind.reaches.1
      · exact ih inRest

end DecisionGraph.IsChain

namespace Layout

variable {graph : DecisionGraph} {layout : Layout} {minEntries : Nat}

def chain? (layout : Layout) (id : NodeId) : Option Chain :=
  layout.chains[id.index]?.join

theorem entered_of_follow {predecessors : Array (List NodeId)} {subject : Temp} (fuel : Nat)
    {constants : List Const} {current : NodeId} {link : Link}
    (member : link ∈ (follow graph predecessors layout subject fuel constants current).links) :
    predecessors[link.node.index]?.map List.length = some 1 ∧
      layout.isAbsorbed link.node = false := by
  induction fuel generalizing constants current with
  | zero => exact absurd member List.not_mem_nil
  | succ fuel ih =>
      rw [follow] at member
      cases compared : graph.comparison? current with
      | none => simp [compared] at member
      | some comparison =>
          obtain ⟨other, first, next⟩ := comparison
          simp only [compared] at member
          split at member
          · rename_i joins
            rcases List.mem_cons.mp member with rfl | inRest
            · rw [(DecisionGraph.node?_of_comparison? compared).2]
              exact ⟨joins.2.1, joins.2.2.2⟩
            · exact ih inRest
          · exact absurd member List.not_mem_nil

theorem entered_of_chainFrom? {predecessors : Array (List NodeId)} {head : NodeId} {chain : Chain}
    (found : layout.chainFrom? graph predecessors head = some chain) {link : Link}
    (member : link ∈ chain.links.tail) :
    predecessors[link.node.index]?.map List.length = some 1 ∧
      layout.isAbsorbed link.node = false := by
  unfold chainFrom? at found
  obtain ⟨_, _, rfl⟩ := Option.map_eq_some_iff.mp found
  exact entered_of_follow graph.size member

theorem set_of_absorbed (links : List Link) (index : Nat) (absorbed : Array Bool)
    (inside : index < absorbed.size)
    (marked : absorbed[index]? = some true ∨ ∃ link ∈ links, link.node.index = index) :
    (links.foldl (fun absorbed link => absorbed.setIfInBounds link.node.index true)
      absorbed)[index]? = some true := by
  induction links generalizing absorbed with
  | nil => simpa using marked
  | cons link rest ih =>
      rw [List.foldl_cons]
      apply ih _ (by simpa using inside)
      by_cases here : link.node.index = index
      · subst here
        exact Or.inl (Array.getElem?_setIfInBounds_self_of_lt inside)
      · rw [Array.getElem?_setIfInBounds_ne here]
        simpa [here] using marked

theorem size_absorbed (links : List Link) (absorbed : Array Bool) :
    (links.foldl (fun absorbed link => absorbed.setIfInBounds link.node.index true)
      absorbed).size = absorbed.size := by
  induction links generalizing absorbed with
  | nil => rfl
  | cons link rest ih => rw [List.foldl_cons, ih, Array.size_setIfInBounds]

/-- What holds of a layout once the nodes in front were looked at. -/
structure Orderly (graph : DecisionGraph) (front : List NodeId) (layout : Layout) : Prop where
  grounded : layout.Grounded graph
  sized : layout.absorbed.size = graph.size
  roomy : layout.chains.size = graph.size
  heads : ∀ head chain, layout.chain? head = some chain →
    head ∈ front ∧ layout.isAbsorbed head = false
  tails : ∀ head chain, layout.chain? head = some chain → ∀ link ∈ chain.links.tail,
    layout.isAbsorbed link.node = true ∧
      graph.predecessors[link.node.index]?.map List.length = some 1
  owned : ∀ id, layout.isAbsorbed id = true →
    ∃ head chain, layout.chain? head = some chain ∧ ∃ link ∈ chain.links.tail, link.node = id
  apart : ∀ first one second other, layout.chain? first = some one →
    layout.chain? second = some other → ∀ link ∈ one.links.tail, ∀ also ∈ other.links.tail,
      link.node = also.node → first = second

theorem chain?_empty (graph : DecisionGraph) (id : NodeId) :
    (Layout.empty graph).chain? id = none := by
  by_cases inside : id.index < graph.size <;> simp [chain?, Layout.empty, inside]

theorem isAbsorbed_empty (graph : DecisionGraph) (id : NodeId) :
    (Layout.empty graph).isAbsorbed id = false := by
  simp [isAbsorbed, Layout.empty, Array.getElem?_replicate]

theorem orderly_empty (graph : DecisionGraph) : Orderly graph [] (.empty graph) where
  grounded := .empty graph
  sized := by simp [Layout.empty]
  roomy := by simp [Layout.empty]
  heads := by simp [chain?_empty]
  tails := by simp [chain?_empty]
  owned := by simp [isAbsorbed_empty]
  apart := by simp [chain?_empty]

theorem Orderly.pass {front : List NodeId} (orderly : Orderly graph front layout) (head : NodeId) :
    Orderly graph (front ++ [head]) layout where
  grounded := orderly.grounded
  sized := orderly.sized
  roomy := orderly.roomy
  heads := fun other chain stored =>
    (orderly.heads other chain stored).imp_left (List.mem_append_left _)
  tails := orderly.tails
  owned := orderly.owned
  apart := orderly.apart

def take (layout : Layout) (head : NodeId) (chain : Chain) : Layout where
  absorbed := chain.links.tail.foldl
    (fun absorbed link => absorbed.setIfInBounds link.node.index true) layout.absorbed
  chains := layout.chains.setIfInBounds head.index (some chain)

/-- Looking at a node changes nothing, or takes in the chain that starts there. -/
theorem absorb_cases (layout : Layout) (predecessors : Array (List NodeId)) (minEntries : Nat)
    (head : NodeId) :
    layout.absorb graph predecessors minEntries head = layout ∨
      ∃ chain, layout.isAbsorbed head = false ∧
        layout.chainFrom? graph predecessors head = some chain ∧
        minEntries ≤ chain.links.length ∧
        layout.absorb graph predecessors minEntries head = layout.take head chain := by
  unfold absorb
  cases absorbed : layout.isAbsorbed head with
  | true => exact Or.inl rfl
  | false =>
      cases found : layout.chainFrom? graph predecessors head with
      | none => exact Or.inl rfl
      | some chain =>
          by_cases short : chain.links.length < minEntries
          · exact Or.inl (by simp [short])
          · exact Or.inr ⟨chain, rfl, rfl, Nat.le_of_not_lt short, by simp [short, take]⟩

theorem chain?_take {head id : NodeId} {chain other : Chain}
    (stored : (layout.take head chain).chain? id = some other) :
    (id = head ∧ other = chain) ∨ (id ≠ head ∧ layout.chain? id = some other) := by
  unfold chain? take at stored
  by_cases same : head.index = id.index
  · obtain rfl := NodeId.ext same
    by_cases inside : head.index < layout.chains.size
    · rw [Array.getElem?_setIfInBounds_self_of_lt inside] at stored
      exact Or.inl ⟨rfl, (Option.some.inj stored).symm⟩
    · simp [inside] at stored
  · rw [Array.getElem?_setIfInBounds_ne same] at stored
    exact Or.inr ⟨fun equal => same (by rw [equal]), stored⟩

theorem chain?_take_self {head : NodeId} {chain : Chain}
    (inside : head.index < layout.chains.size) :
    (layout.take head chain).chain? head = some chain := by
  unfold chain? take
  rw [Array.getElem?_setIfInBounds_self_of_lt inside]
  rfl

theorem chain?_take_of_ne {head id : NodeId} {chain : Chain} (other : id ≠ head) :
    (layout.take head chain).chain? id = layout.chain? id := by
  unfold chain? take
  rw [Array.getElem?_setIfInBounds_ne fun same => other (NodeId.ext same.symm)]

theorem isAbsorbed_take {head id : NodeId} {chain : Chain} :
    (layout.take head chain).isAbsorbed id = true →
      layout.isAbsorbed id = true ∨ ∃ link ∈ chain.links.tail, link.node = id := by
  intro marked
  rcases mem_of_absorbed chain.links.tail id.index layout.absorbed
    (by simpa [isAbsorbed, take] using marked) with before | ⟨link, inTail, same⟩
  · exact Or.inl (by simp [isAbsorbed, before])
  · exact Or.inr ⟨link, inTail, NodeId.ext same⟩

theorem isAbsorbed_take_of {head id : NodeId} {chain : Chain}
    (inside : id.index < layout.absorbed.size)
    (marked : layout.isAbsorbed id = true ∨ ∃ link ∈ chain.links.tail, link.node = id) :
    (layout.take head chain).isAbsorbed id = true := by
  have stays := set_of_absorbed chain.links.tail id.index layout.absorbed inside
    (marked.imp (fun before => by simpa [isAbsorbed] using before)
      fun ⟨link, inTail, same⟩ => ⟨link, inTail, by rw [same]⟩)
  simp [isAbsorbed, take, stays]

theorem isAbsorbed_take_mono {head id : NodeId} {chain : Chain}
    (marked : layout.isAbsorbed id = true) : (layout.take head chain).isAbsorbed id = true := by
  refine isAbsorbed_take_of ?_ (Or.inl marked)
  exact (Array.getElem?_eq_some_iff.mp (by simpa [isAbsorbed] using marked)).1

/-- A chain whose links lie behind its head, are entered from one node each, and
are in no table yet. -/
structure Fresh (graph : DecisionGraph) (layout : Layout) (head : NodeId) (chain : Chain) :
    Prop where
  listed : head ∈ graph.topologicalOrder
  free : layout.isAbsorbed head = false
  inside : ∀ link ∈ chain.links.tail, link.node.index < graph.size
  beyond : ∀ link ∈ chain.links.tail, graph.rank head < graph.rank link.node
  single : ∀ link ∈ chain.links.tail,
    graph.predecessors[link.node.index]?.map List.length = some 1
  untaken : ∀ link ∈ chain.links.tail, layout.isAbsorbed link.node = false

theorem fresh_of_chainFrom? (acyclic : graph.Acyclic) {head : NodeId} {chain : Chain}
    (listed : head ∈ graph.topologicalOrder) (free : layout.isAbsorbed head = false)
    (found : layout.chainFrom? graph graph.predecessors head = some chain) :
    Fresh graph layout head chain := by
  obtain ⟨subject, isChain, notEmpty⟩ := chainFrom?_isChain found
  have inside : ∀ link ∈ chain.links.tail, link.node.index < graph.size := by
    intro link member
    obtain ⟨next, compared⟩ := isChain.compared_of_mem (List.mem_of_mem_tail member)
    exact DecisionGraph.node?_inside (DecisionGraph.node?_of_comparison? compared).1
  exact {
    listed, free, inside
    beyond := fun link member => DecisionGraph.rank_lt_of_transGen acyclic listed
      ((isChain.reaches_beyond notEmpty).1 link member) (inside link member)
    single := fun _ member => (entered_of_chainFrom? found member).1
    untaken := fun _ member => (entered_of_chainFrom? found member).2 }

section Fresh

variable {front : List NodeId} {head : NodeId} {chain : Chain}
  (fresh : Fresh graph layout head chain)

include fresh

theorem Fresh.spared {id : NodeId} (early : graph.rank id ≤ graph.rank head)
    (before : layout.isAbsorbed id = false) : (layout.take head chain).isAbsorbed id = false := by
  cases marked : (layout.take head chain).isAbsorbed id with
  | false => rfl
  | true =>
      rcases isAbsorbed_take marked with already | ⟨link, member, rfl⟩
      · rw [before] at already
        contradiction
      · have later := fresh.beyond link member
        omega

theorem Orderly.not_taken_twice (orderly : Orderly graph front layout) {other : NodeId}
    {stored : Chain} (held : layout.chain? other = some stored) {link also : Link}
    (member : link ∈ stored.links.tail) (alsoMember : also ∈ chain.links.tail) :
    link.node ≠ also.node := by
  intro same
  have marked := (orderly.tails other stored held link member).1
  rw [same, fresh.untaken also alsoMember] at marked
  contradiction

theorem Orderly.taking (orderly : Orderly graph front layout)
    (grounded : Grounded graph (layout.take head chain))
    (lower : ∀ id ∈ front, graph.rank id < graph.rank head) :
    Orderly graph (front ++ [head]) (layout.take head chain) where
  grounded := grounded
  sized := by rw [take, size_absorbed, orderly.sized]
  roomy := by rw [take, Array.size_setIfInBounds, orderly.roomy]
  heads := by
    intro other stored held
    rcases chain?_take held with ⟨rfl, _⟩ | ⟨_, before⟩
    · exact ⟨by simp, fresh.spared (Nat.le_refl _) fresh.free⟩
    · obtain ⟨member, notAbsorbed⟩ := orderly.heads other stored before
      exact ⟨List.mem_append_left _ member,
        fresh.spared (Nat.le_of_lt (lower other member)) notAbsorbed⟩
  tails := by
    intro other stored held link member
    rcases chain?_take held with ⟨rfl, rfl⟩ | ⟨_, before⟩
    · refine ⟨isAbsorbed_take_of ?_ (Or.inr ⟨link, member, rfl⟩), fresh.single link member⟩
      rw [orderly.sized]
      exact fresh.inside link member
    · exact (orderly.tails other stored before link member).imp_left isAbsorbed_take_mono
  owned := by
    intro id marked
    rcases isAbsorbed_take marked with already | ⟨link, member, same⟩
    · obtain ⟨owner, stored, held, rest⟩ := orderly.owned id already
      refine ⟨owner, stored, ?_, rest⟩
      rw [chain?_take_of_ne, held]
      rintro rfl
      exact Nat.lt_irrefl _ (lower owner (orderly.heads owner stored held).1)
    · refine ⟨head, chain, chain?_take_self ?_, link, member, same⟩
      rw [orderly.roomy]
      exact ((graph.mem_topologicalOrder head).mp fresh.listed).2
  apart := by
    intro first one second other heldOne heldOther link member also alsoMember same
    rcases chain?_take heldOne with ⟨rfl, rfl⟩ | ⟨_, beforeOne⟩
    · rcases chain?_take heldOther with ⟨rfl, _⟩ | ⟨_, beforeOther⟩
      · rfl
      · exact absurd same.symm (orderly.not_taken_twice fresh beforeOther alsoMember member)
    · rcases chain?_take heldOther with ⟨rfl, rfl⟩ | ⟨_, beforeOther⟩
      · exact absurd same (orderly.not_taken_twice fresh beforeOne member alsoMember)
      · exact orderly.apart first one second other beforeOne beforeOther link member also
          alsoMember same

end Fresh

/-- One node after the other, in topological order: what is taken in at a node
lies behind it, so it is no earlier head, and was not taken before. -/
theorem Orderly.absorb (acyclic : graph.Acyclic) {front back : List NodeId} {head : NodeId}
    (ordered : graph.topologicalOrder = front ++ head :: back)
    (orderly : Orderly graph front layout) :
    Orderly graph (front ++ [head])
      (layout.absorb graph graph.predecessors minEntries head) := by
  have listed : head ∈ graph.topologicalOrder := by simp [ordered]
  have grounded : Grounded graph (layout.absorb graph graph.predecessors minEntries head) :=
    orderly.grounded.absorb listed
  rcases layout.absorb_cases graph.predecessors minEntries head with
    unchanged | ⟨chain, free, found, _, taken⟩
  · rw [unchanged]
    exact orderly.pass head
  · rw [taken] at grounded ⊢
    have fresh := fresh_of_chainFrom? acyclic listed free found
    refine orderly.taking fresh grounded fun id member => ?_
    have pairs := graph.pairwise_rank
    rw [ordered] at pairs
    exact (List.pairwise_append.mp pairs).2.2 id member head List.mem_cons_self

theorem Orderly.foldl (acyclic : graph.Acyclic) {back : List NodeId} :
    ∀ {front : List NodeId} {layout : Layout}, graph.topologicalOrder = front ++ back →
      Orderly graph front layout →
      Orderly graph graph.topologicalOrder
        (back.foldl (Layout.absorb graph graph.predecessors minEntries) layout) := by
  induction back with
  | nil =>
      intro front layout ordered orderly
      rw [List.append_nil] at ordered
      rw [ordered]
      exact orderly
  | cons head back ih =>
      intro front layout ordered orderly
      rw [List.foldl_cons]
      have onward : graph.topologicalOrder = front ++ [head] ++ back := by simp [ordered]
      exact ih onward (orderly.absorb acyclic ordered)

theorem orderly_plan (acyclic : graph.Acyclic) (minEntries : Nat) :
    Orderly graph graph.topologicalOrder (plan graph minEntries graph.topologicalOrder) :=
  Orderly.foldl acyclic rfl (orderly_empty graph)

/-! ## The way into an absorbed node -/

/-- A node with an edge to an absorbed node is the link before it in a table. -/
def EntersBy (graph : DecisionGraph) (layout : Layout) (source target : NodeId) : Prop :=
  ∃ head chain subject before link, layout.chain? head = some chain ∧
    graph.IsChain subject [] head chain ∧ before ∈ chain.links ∧ link ∈ chain.links.tail ∧
    before.node = source ∧ link.node = target ∧
    graph.comparison? source = some (subject, before, target) ∧
    before.constant.sameValue? link.constant = some false

variable {front : List NodeId}

theorem Orderly.entersBy (orderly : Orderly graph front layout) {source target : NodeId}
    (absorbed : layout.isAbsorbed target = true) (edge : graph.Edge source target) :
    EntersBy graph layout source target := by
  obtain ⟨head, chain, held, link, member, rfl⟩ := orderly.owned target absorbed
  obtain ⟨subject, isChain, _⟩ := orderly.grounded.chains head chain held
  obtain ⟨before, inChain, compared, apart⟩ := isChain.exists_before member
  obtain ⟨next, linkCompared⟩ := isChain.compared_of_mem (List.mem_of_mem_tail member)
  have inside := DecisionGraph.node?_inside (DecisionGraph.node?_of_comparison? linkCompared).1
  have beforeEdge : graph.Edge before.node link.node :=
    DecisionGraph.edge_of_node (DecisionGraph.node?_of_comparison? compared).1
      (by simp [Node.successors])
  have same : before.node = source := DecisionGraph.source_unique
    (orderly.tails head chain held link member).2 inside beforeEdge edge
  exact ⟨head, chain, subject, before, link, held, isChain, inChain, member, same, rfl,
    same ▸ compared, apart⟩

theorem Orderly.same_head (orderly : Orderly graph front layout) {first second : NodeId}
    {one other : Chain} (heldOne : layout.chain? first = some one)
    (heldOther : layout.chain? second = some other) {link also : Link} (member : link ∈ one.links)
    (alsoMember : also ∈ other.links) (same : link.node = also.node) : first = second := by
  obtain ⟨_, isOne, _⟩ := orderly.grounded.chains first one heldOne
  obtain ⟨_, isOther, _⟩ := orderly.grounded.chains second other heldOther
  have firstFree := (orderly.heads first one heldOne).2
  have secondFree := (orderly.heads second other heldOther).2
  rcases isOne.node_eq_or_mem_tail member with isHead | inTail
  · rcases isOther.node_eq_or_mem_tail alsoMember with otherHead | otherTail
    · rw [← isHead, same, otherHead]
    · have marked := (orderly.tails second other heldOther also otherTail).1
      rw [← same, isHead, firstFree] at marked
      contradiction
  · have marked := (orderly.tails first one heldOne link inTail).1
    rcases isOther.node_eq_or_mem_tail alsoMember with otherHead | otherTail
    · rw [same, otherHead, secondFree] at marked
      contradiction
    · exact orderly.apart first one second other heldOne heldOther link inTail also otherTail same

end Layout

end MatchCompiler
