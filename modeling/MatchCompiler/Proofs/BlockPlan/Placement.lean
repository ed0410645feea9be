import MatchCompiler.Proofs.BlockPlan.Totality

/-!
# Every node has one place in a plan

The nodes that a plan accounts for are those that have a block and those that a
jump table takes in behind its head. They are the reachable nodes of the graph,
each of them once; and the plan, like the graph, has no way back.
-/

set_option autoImplicit false

namespace MatchCompiler

/-- The first `count` of the nodes that are met, from a node on, while tests
fail. -/
def DecisionGraph.failing (graph : DecisionGraph) : Nat → NodeId → List NodeId
  | 0, _ => []
  | count + 1, id =>
      id :: match graph.node? id with
        | some (.test _ _ onFalse) => graph.failing count onFalse
        | _ => []

/-- The nodes that a block takes in behind its own: for a jump table, the one
that each entry but the first stands for. -/
def Block.takenIn (graph : DecisionGraph) (block : Block) : List NodeId :=
  match block.exit with
  | .dispatch _ entries _ => (graph.failing entries.length block.node).tail
  | _ => []

/-- The nodes that a plan accounts for, block by block. -/
def BlockPlan.places (graph : DecisionGraph) (plan : BlockPlan) : List NodeId :=
  plan.blocks.toList.flatMap fun block => block.node :: block.takenIn graph

/-- An entry of a jump table does what a node of the graph does: it compares with
the same constant, and leads to the block of the node that follows. -/
def BlockPlan.Renders (graph : DecisionGraph) (plan : BlockPlan) (subject : Temp) (id : NodeId)
    (entry : Const × BlockId) : Prop :=
  ∃ onTrue onFalse block, graph.node? id = some (.test ⟨subject, .equals entry.1⟩ onTrue onFalse) ∧
    plan.block? entry.2 = some block ∧ block.node = onTrue

/-- A jump table that pays, takes one entry for each value at most, and does what
the nodes from `head` on do. -/
structure BlockPlan.IsTable (graph : DecisionGraph) (minEntries : Nat) (plan : BlockPlan)
    (head : NodeId) (subject : Temp) (entries : List (Const × BlockId)) : Prop where
  long : minEntries ≤ entries.length
  switchable : ∀ entry ∈ entries, entry.1.isSwitchable = true
  distinct : (entries.map (·.1)).Nodup
  renders : List.Forall₂ (plan.Renders graph subject) (graph.failing entries.length head) entries

/-- What can be said of a plan without executing it. -/
structure BlockPlan.WellFormed (graph : DecisionGraph) (minEntries : Nat) (plan : BlockPlan) :
    Prop where
  entry : ∃ block, plan.block? entry = some block ∧ block.node = graph.root
  onward : ∀ (id next : BlockId) (block : Block), plan.block? id = some block →
    next ∈ block.exit.successors → id.index < next.index ∧ (plan.block? next).isSome
  placed : ∀ id, id ∈ plan.places graph ↔ graph.Reaches graph.root id ∧ id.index < graph.size
  once : (plan.places graph).Nodup
  tables : ∀ block ∈ plan.blocks, ∀ subject entries default,
    block.exit = .dispatch subject entries default →
      plan.IsTable graph minEntries block.node subject entries

/-! ## The nodes of a chain -/

namespace DecisionGraph.IsChain

variable {graph : DecisionGraph} {subject : Temp} {constants : List Const} {current : NodeId}
  {chain : Chain}

theorem failing_eq (isChain : graph.IsChain subject constants current chain) :
    graph.failing chain.links.length current = chain.links.map (·.node) := by
  induction isChain with
  | stop => rfl
  | link compared _ _ ih =>
      obtain ⟨found, isHead⟩ := node?_of_comparison? compared
      simp only [List.length_cons, failing, found, ih, List.map_cons, isHead]

theorem isSwitchable (isChain : graph.IsChain subject constants current chain) {link : Link}
    (member : link ∈ chain.links) : link.constant.isSwitchable = true := by
  obtain ⟨_, compared⟩ := isChain.compared_of_mem member
  exact isSwitchable_of_comparison? compared

theorem nodup_constants (isChain : graph.IsChain subject constants current chain) :
    (chain.links.map (·.constant)).Nodup :=
  List.pairwise_map.mpr (isChain.constants_apart.1.imp Const.ne_of_sameValue?)

end DecisionGraph.IsChain

namespace Layout

variable {graph : DecisionGraph} {layout : Layout} {minEntries : Nat}

def Long (minEntries : Nat) (layout : Layout) : Prop :=
  ∀ id chain, layout.chain? id = some chain → minEntries ≤ chain.links.length

theorem long_empty (graph : DecisionGraph) (minEntries : Nat) : Long minEntries (.empty graph) :=
  fun id chain held =>
    absurd ((orderly_empty graph).heads id chain held).1 List.not_mem_nil

theorem Long.absorb (long : layout.Long minEntries) (predecessors : Array (List NodeId))
    (head : NodeId) : (layout.absorb graph predecessors minEntries head).Long minEntries := by
  intro id chain held
  rcases layout.absorb_cases predecessors minEntries head with
    unchanged | ⟨new, _, _, enough, taken⟩
  · exact long id chain (by rwa [unchanged] at held)
  · rw [taken] at held
    rcases chain?_take held with ⟨_, rfl⟩ | ⟨_, before⟩
    · exact enough
    · exact long id chain before

theorem long_plan (graph : DecisionGraph) (minEntries : Nat) (order : List NodeId) :
    (plan graph minEntries order).Long minEntries :=
  List.foldlRecOn order _ (long_empty graph minEntries)
    fun _ long head _ => long.absorb graph.predecessors head

/-! ## The nodes that a block accounts for -/

def group (layout : Layout) (id : NodeId) : List NodeId :=
  id :: match layout.chain? id with
    | some chain => chain.links.tail.map (·.node)
    | none => []

theorem mem_group_iff {id other : NodeId} : other ∈ layout.group id ↔
    other = id ∨ ∃ chain, layout.chain? id = some chain ∧ ∃ link ∈ chain.links.tail,
      link.node = other := by
  unfold group
  cases held : layout.chain? id with
  | none => simp
  | some chain => simp only [List.mem_cons, List.mem_map, Option.some.injEq, exists_eq_left']

section Groups

variable (orderly : Orderly graph graph.topologicalOrder layout) {first second id : NodeId}

include orderly

theorem Orderly.nodup_group (acyclic : graph.Acyclic) (free : layout.isAbsorbed id = false) :
    (layout.group id).Nodup := by
  unfold group
  cases held : layout.chain? id with
  | none => exact List.nodup_singleton id
  | some chain =>
      obtain ⟨_, isChain, _⟩ := orderly.grounded.chains id chain held
      refine List.nodup_cons.mpr ⟨?_, List.pairwise_map.mpr ?_⟩
      · intro inTail
        obtain ⟨link, member, same⟩ := List.mem_map.mp inTail
        have marked := (orderly.tails id chain held link member).1
        rw [same, free] at marked
        contradiction
      · refine isChain.pairwise_transGen.tail.imp_of_mem fun {before after} member _ path same => ?_
        have reached := (orderly.reaches_head held).trans
          (isChain.reaches.2 before (List.mem_of_mem_tail member)).1
        exact acyclic before.node reached (same ▸ path)

/-- Two blocks account for different nodes: a head is in no table, and a link in
one only. -/
theorem Orderly.disjoint_groups (firstFree : layout.isAbsorbed first = false)
    (secondFree : layout.isAbsorbed second = false) (apart : first ≠ second) :
    List.Disjoint (layout.group first) (layout.group second) := by
  intro id inFirst inSecond
  rcases mem_group_iff.mp inFirst with rfl | ⟨one, heldOne, link, member, rfl⟩
  · rcases mem_group_iff.mp inSecond with same | ⟨other, heldOther, also, alsoMember, rfl⟩
    · exact apart same
    · rw [(orderly.tails second other heldOther also alsoMember).1] at firstFree
      contradiction
  · rcases mem_group_iff.mp inSecond with rfl | ⟨other, heldOther, also, alsoMember, same⟩
    · rw [(orderly.tails first one heldOne link member).1] at secondFree
      contradiction
    · exact apart (orderly.apart first one second other heldOne heldOther link member also
        alsoMember same.symm)

theorem Orderly.nodup_groups (acyclic : graph.Acyclic) :
    ((graph.topologicalOrder.filter fun id => !layout.isAbsorbed id).flatMap layout.group).Nodup := by
  have free : ∀ id ∈ graph.topologicalOrder.filter fun id => !layout.isAbsorbed id,
      layout.isAbsorbed id = false := fun id kept => by simpa using (List.mem_filter.mp kept).2
  refine List.nodup_flatMap.mpr ⟨fun id kept => orderly.nodup_group acyclic (free id kept), ?_⟩
  refine (graph.nodup_topologicalOrder.filter _).pairwise_of_forall_ne ?_
  exact fun first firstKept second secondKept apart =>
    orderly.disjoint_groups (free first firstKept) (free second secondKept) apart

theorem Orderly.mem_groups_iff :
    id ∈ (graph.topologicalOrder.filter fun id => !layout.isAbsorbed id).flatMap layout.group ↔
      id ∈ graph.topologicalOrder := by
  rw [List.mem_flatMap]
  constructor
  · rintro ⟨head, kept, inGroup⟩
    rcases mem_group_iff.mp inGroup with rfl | ⟨chain, held, link, member, rfl⟩
    · exact (List.mem_filter.mp kept).1
    · obtain ⟨_, isChain, _⟩ := orderly.grounded.chains head chain held
      have inChain := List.mem_of_mem_tail member
      obtain ⟨_, compared⟩ := isChain.compared_of_mem inChain
      exact (graph.mem_topologicalOrder link.node).mpr
        ⟨(orderly.reaches_head held).trans (isChain.reaches.2 link inChain).1,
          DecisionGraph.node?_inside (DecisionGraph.node?_of_comparison? compared).1⟩
  · intro listed
    cases absorbed : layout.isAbsorbed id with
    | false => exact ⟨id, List.mem_filter.mpr ⟨listed, by simp [absorbed]⟩, List.mem_cons_self⟩
    | true =>
        obtain ⟨head, chain, held, link, member, rfl⟩ := orderly.owned id absorbed
        obtain ⟨headListed, headFree⟩ := orderly.heads head chain held
        exact ⟨head, List.mem_filter.mpr ⟨headListed, by simp [headFree]⟩,
          mem_group_iff.mpr (Or.inr ⟨chain, held, link, member, rfl⟩)⟩

end Groups

end Layout

/-! ## The blocks of a plan -/

theorem Node.LeavesBy.exists_find {blocks : Array (Option BlockId)} {node : Node} {exit : Exit}
    (leaves : node.LeavesBy blocks exit) {next : BlockId} (member : next ∈ exit.successors) :
    ∃ target ∈ node.successors, BlockId.find blocks target = .ok next := by
  cases leaves with
  | access made found | bind _ _ _ _ found =>
      obtain rfl := List.mem_singleton.mp member
      exact ⟨_, List.mem_cons_self, found⟩
  | test asked foundTrue foundFalse | guard _ _ _ _ foundTrue foundFalse =>
      rcases List.mem_cons.mp member with rfl | last
      · exact ⟨_, List.mem_cons_self, foundTrue⟩
      · obtain rfl := List.mem_singleton.mp last
        exact ⟨_, List.mem_cons_of_mem _ List.mem_cons_self, foundFalse⟩
  | success | failure => exact absurd member List.not_mem_nil

namespace DecisionGraph

variable {graph : DecisionGraph} {plan : BlockPlan} {minEntries : Nat} {id : NodeId} {block : Block}
  {layout : Layout} {blocks : Array (Option BlockId)}

theorem exists_behind (grounded : layout.Grounded graph)
    (laidOut : graph.layOut layout blocks id = .ok block) {next : BlockId}
    (member : next ∈ block.exit.successors) :
    ∃ target, Relation.TransGen graph.Edge id target ∧ BlockId.find blocks target = .ok next := by
  obtain ⟨_, node, found, ⟨subject, chain, _, isChain, notEmpty, left⟩ | ⟨_, left⟩⟩ :=
    layOut_cases grounded laidOut
  · obtain ⟨_, targets, behind⟩ := isChain.reaches_beyond notEmpty
    obtain ⟨entries, default, isExit, paired, foundDefault⟩ := Chain.exists_entries left
    rw [isExit] at member
    rcases List.mem_append.mp member with inEntries | isDefault
    · obtain ⟨entry, isEntry, rfl⟩ := List.mem_map.mp inEntries
      obtain ⟨link, inChain, _, entered⟩ := exists_of_mem_forall₂ paired isEntry
      exact ⟨link.target, targets link inChain, entered⟩
    · obtain rfl := List.mem_singleton.mp isDefault
      exact ⟨chain.default, behind, foundDefault⟩
  · obtain ⟨target, isNext, foundBlock⟩ := (Node.exit_eq_ok left).exists_find member
    exact ⟨target, .single (edge_of_node found isNext), foundBlock⟩

theorem takenIn_of_layOut (grounded : layout.Grounded graph)
    (laidOut : graph.layOut layout blocks id = .ok block) :
    block.node :: block.takenIn graph = layout.group id := by
  obtain ⟨rfl, _, _, ⟨_, chain, stored, isChain, _, left⟩ | ⟨unstored, left⟩⟩ :=
    layOut_cases grounded laidOut
  · obtain ⟨entries, default, isExit, paired, _⟩ := Chain.exists_entries left
    have held : layout.chain? block.node = some chain := stored
    simp only [Block.takenIn, isExit, Layout.group, held, ← paired.length_eq, isChain.failing_eq,
      List.map_tail]
  · have unheld : layout.chain? block.node = none := unstored
    have plain := (Node.exit_eq_ok left).isDispatch
    unfold Block.takenIn Layout.group
    rw [unheld]
    split
    · rename_i isExit
      rw [isExit] at plain
      contradiction
    · rfl

theorem flatMap_places (grounded : layout.Grounded graph) {ids : List NodeId} {laidOut : List Block}
    (paired : List.Forall₂ (fun id block => graph.layOut layout blocks id = .ok block) ids laidOut) :
    laidOut.flatMap (fun block => block.node :: block.takenIn graph) = ids.flatMap layout.group := by
  induction paired with
  | nil => rfl
  | cons first _ ih =>
      rw [List.flatMap_cons, List.flatMap_cons, takenIn_of_layOut grounded first, ih]

theorem places_of_lower (lowered : graph.lower minEntries = .ok plan) :
    plan.places graph = (graph.kept minEntries).flatMap
      (Layout.plan graph minEntries graph.topologicalOrder).group :=
  flatMap_places (Layout.plan_grounded graph minEntries) (lower_eq_ok lowered)

theorem exists_kept_of_block? (lowered : graph.lower minEntries = .ok plan) {number : BlockId}
    (stored : plan.block? number = some block) :
    ∃ id, (graph.kept minEntries)[number.index]? = some id ∧
      graph.layOut (Layout.plan graph minEntries graph.topologicalOrder)
        (BlockId.table graph.size (graph.kept minEntries)) id = .ok block := by
  obtain ⟨sized, laidOut⟩ := block?_of_lower lowered
  have positionInside := (Array.getElem?_eq_some_iff.mp stored).1
  have inKept : number.index < (graph.kept minEntries).length := by omega
  refine ⟨_, List.getElem?_eq_getElem inKept, ?_⟩
  obtain ⟨other, otherStored, left⟩ := laidOut number.index _ (List.getElem?_eq_getElem inKept)
  obtain rfl := Option.some.inj (stored.symm.trans otherStored)
  exact left

theorem exists_block_of_find (lowered : graph.lower minEntries = .ok plan) {number : BlockId}
    (found : BlockId.find (BlockId.table graph.size (graph.kept minEntries)) id = .ok number) :
    ∃ block, plan.block? number = some block ∧ block.node = id := by
  obtain ⟨block, stored, laidOut⟩ :=
    (block?_of_lower lowered).2 number.index id (BlockId.kept_of_find found)
  exact ⟨block, stored, (layOut_cases (Layout.plan_grounded graph minEntries) laidOut).1⟩

theorem successor_of_lower (acyclic : graph.Acyclic) (lowered : graph.lower minEntries = .ok plan)
    {number next : BlockId} (stored : plan.block? number = some block)
    (member : next ∈ block.exit.successors) :
    number.index < next.index ∧ (plan.block? next).isSome := by
  obtain ⟨id, isKept, laidOut⟩ := exists_kept_of_block? lowered stored
  obtain ⟨target, path, found⟩ :=
    exists_behind (Layout.plan_grounded graph minEntries) laidOut member
  have targetKept := BlockId.kept_of_find found
  have inside := ((graph.mem_topologicalOrder target).mp (mem_order_of_kept targetKept)).2
  have onward := rank_lt_of_transGen acyclic (mem_order_of_kept isKept) path inside
  obtain ⟨_, isNext, _⟩ := exists_block_of_find lowered found
  exact ⟨kept_position_lt isKept targetKept onward, by rw [isNext]; rfl⟩

theorem exists_chain_of_dispatch (lowered : graph.lower minEntries = .ok plan)
    (member : block ∈ plan.blocks) {subject : Temp} {entries : List (Const × BlockId)}
    {default : BlockId} (isExit : block.exit = .dispatch subject entries default) :
    ∃ chain, (Layout.plan graph minEntries graph.topologicalOrder).chain? block.node = some chain ∧
      graph.IsChain subject [] block.node chain ∧
      List.Forall₂ (Link.Enters (BlockId.table graph.size (graph.kept minEntries)))
        chain.links entries := by
  obtain ⟨id, _, laidOut⟩ := exists_of_mem_forall₂ (lower_eq_ok lowered) member.val
  obtain ⟨rfl, _, _, ⟨_, chain, stored, isChain, _, left⟩ | ⟨_, left⟩⟩ :=
    layOut_cases (Layout.plan_grounded graph minEntries) laidOut
  · obtain ⟨_, _, isTable, paired, _⟩ := Chain.exists_entries left
    rw [isExit] at isTable
    cases isTable
    exact ⟨chain, stored, isChain, paired⟩
  · have plain := (Node.exit_eq_ok left).isDispatch
    rw [isExit] at plain
    contradiction

theorem isTable_of_dispatch (lowered : graph.lower minEntries = .ok plan)
    (member : block ∈ plan.blocks) {subject : Temp} {entries : List (Const × BlockId)}
    {default : BlockId} (isExit : block.exit = .dispatch subject entries default) :
    plan.IsTable graph minEntries block.node subject entries := by
  obtain ⟨chain, held, isChain, paired⟩ := exists_chain_of_dispatch lowered member isExit
  refine ⟨?long, fun entry isEntry => ?switchable, ?distinct, ?renders⟩
  case long =>
    rw [← paired.length_eq]
    exact Layout.long_plan graph minEntries graph.topologicalOrder _ _ held
  case switchable =>
    obtain ⟨link, inChain, same, _⟩ := exists_of_mem_forall₂ paired isEntry
    rw [same]
    exact isChain.isSwitchable inChain
  case distinct =>
    rw [Link.constants_eq paired]
    exact isChain.nodup_constants
  case renders =>
    rw [← paired.length_eq, isChain.failing_eq, List.forall₂_map_left_iff]
    have compared := (List.forall₂_and_left _ _).mpr
      ⟨fun link inChain => isChain.compared_of_mem inChain, paired⟩
    refine compared.imp fun link entry => ?_
    rintro ⟨⟨next, isLink⟩, same, found⟩
    obtain ⟨target, stored, isTarget⟩ := exists_block_of_find lowered found
    exact ⟨link.target, next, target, by rw [same]; exact (node?_of_comparison? isLink).1, stored,
      isTarget⟩

/-- What holds of the plan of a graph without cycles, whatever makes a table. -/
theorem lower_wellFormed (inside : graph.root.index < graph.size) (acyclic : graph.Acyclic)
    (lowered : graph.lower minEntries = .ok plan) : plan.WellFormed graph minEntries where
  entry := by
    obtain ⟨block, stored, laidOut⟩ :=
      (block?_of_lower lowered).2 0 graph.root (kept_root acyclic inside)
    exact ⟨block, stored, (layOut_cases (Layout.plan_grounded graph minEntries) laidOut).1⟩
  onward := fun _ _ _ stored member => successor_of_lower acyclic lowered stored member
  placed := fun id => by
    rw [places_of_lower lowered, ← graph.mem_topologicalOrder]
    exact (Layout.orderly_plan acyclic minEntries).mem_groups_iff
  once := by
    rw [places_of_lower lowered]
    exact (Layout.orderly_plan acyclic minEntries).nodup_groups acyclic
  tables := fun _ member _ _ _ isExit => isTable_of_dispatch lowered member isExit

/-- Three comparisons in a row, the second of which can be reached around the
first. -/
def aroundGraph : DecisionGraph where
  nodes := #[.success 0 ⟨0⟩, .success 1 ⟨1⟩, .failure,
    .test ⟨.root, .equals (.int 3)⟩ ⟨0⟩ ⟨2⟩, .test ⟨.root, .equals (.int 2)⟩ ⟨1⟩ ⟨3⟩,
    .test ⟨.root, .equals (.int 1)⟩ ⟨0⟩ ⟨4⟩, .test ⟨.root, .nonNull⟩ ⟨5⟩ ⟨4⟩]
  root := ⟨6⟩
  table := .ofInput Hierarchy.object
  armCount := 2

/-- The second one heads a table that takes in the third, so only the third has
no block. -/
theorem lower_wellFormed_aroundGraph :
    aroundGraph.root.index < aroundGraph.size ∧ aroundGraph.Acyclic ∧
      ∃ plan, aroundGraph.lower 2 = .ok plan ∧ plan.WellFormed aroundGraph 2 ∧
        plan.places aroundGraph = [⟨6⟩, ⟨5⟩, ⟨4⟩, ⟨3⟩, ⟨2⟩, ⟨1⟩, ⟨0⟩] := by
  have inside : aroundGraph.root.index < aroundGraph.size := by decide
  have acyclic : aroundGraph.Acyclic := acyclic_of_descending (by decide)
  have lowered : aroundGraph.lower 2 = .ok ⟨#[⟨⟨6⟩, .branch ⟨.root, .nonNull⟩ ⟨1⟩ ⟨2⟩⟩,
      ⟨⟨5⟩, .branch ⟨.root, .equals (.int 1)⟩ ⟨5⟩ ⟨2⟩⟩,
      ⟨⟨4⟩, .dispatch .root [(.int 2, ⟨4⟩), (.int 3, ⟨5⟩)] ⟨3⟩⟩, ⟨⟨2⟩, .fail⟩,
      ⟨⟨1⟩, .goto 1 ⟨1⟩⟩, ⟨⟨0⟩, .goto 0 ⟨0⟩⟩]⟩ := by cbv
  exact ⟨inside, acyclic, _, lowered, lower_wellFormed inside acyclic lowered, by cbv⟩

end DecisionGraph

end MatchCompiler
