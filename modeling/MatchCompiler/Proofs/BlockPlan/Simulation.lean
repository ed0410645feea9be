import Mathlib
import MatchCompiler.BlockPlan.Run
import MatchCompiler.Proofs.BlockPlan.Chain
import MatchCompiler.Proofs.DecisionGraph.Construction
import MatchCompiler.Proofs.Success

/-!
# Block plans run like walks

Each block does what the walk does at the node that it stands for; a jump table
does what the walk does along its chain. Executing the plan of a graph without
cycles therefore ends as the walk through the graph does, with the same guard
calls.
-/

set_option autoImplicit false

namespace MatchCompiler

/-! ## Blocks and the nodes that they stand for -/

namespace BlockId

theorem find_eq_ok {blocks : Array (Option BlockId)} {node : NodeId} {block : BlockId} :
    find blocks node = .ok block ↔ blocks[node.index]?.join = some block := by
  unfold find
  cases found : blocks[node.index]?.join <;> simp

theorem of_mem_table (index : Nat) (block : BlockId) (entries : List (NodeId × Nat)) :
    ∀ table : Array (Option BlockId),
      (entries.foldl (fun table entry => table.setIfInBounds entry.1.index (some ⟨entry.2⟩))
        table)[index]?.join = some block →
      table[index]?.join = some block ∨
        ∃ entry ∈ entries, entry.1.index = index ∧ block = ⟨entry.2⟩ := by
  induction entries with
  | nil => exact fun table found => Or.inl found
  | cons entry rest ih =>
      intro table found
      rcases ih _ found with before | ⟨other, inRest, same, isBlock⟩
      · by_cases same : entry.1.index = index
        · subst same
          by_cases inside : entry.1.index < table.size
          · simp only [Array.getElem?_setIfInBounds_self_of_lt inside, Option.join_some,
              Option.some.injEq] at before
            exact Or.inr ⟨entry, List.mem_cons_self, rfl, before.symm⟩
          · simp [inside] at before
        · rw [Array.getElem?_setIfInBounds_ne same] at before
          exact Or.inl before
      · exact Or.inr ⟨other, List.mem_cons_of_mem _ inRest, same, isBlock⟩

theorem kept_of_find {size : Nat} {kept : List NodeId} {node : NodeId} {block : BlockId}
    (found : find (table size kept) node = .ok block) : kept[block.index]? = some node := by
  rw [find_eq_ok] at found
  rcases of_mem_table node.index block kept.zipIdx _ found with before | ⟨entry, member, same, rfl⟩
  · by_cases inside : node.index < size <;> simp [inside] at before
  · have isNode : entry.1 = node := by
      obtain ⟨⟨index⟩, position⟩ := entry
      cases node
      simp_all
    rw [← isNode]
    exact List.mem_zipIdx_iff_getElem?.mp member

end BlockId

/-- The same action, with the target turned into its block. -/
inductive Advance.Matches (blocks : Array (Option BlockId)) :
    Advance NodeId → Advance BlockId → Prop
  | halt (run : Run) : Matches blocks (.halt run) (.halt run)
  | proceed {next : NodeId} {block : BlockId} (progress : Progress)
      (found : BlockId.find blocks next = .ok block) :
      Matches blocks (.proceed next progress) (.proceed block progress)

namespace Advance.Matches

variable {blocks : Array (Option BlockId)} {next : NodeId} {block : BlockId}

theorem access (table : AccessTable) (made : Access) (progress : Progress)
    (found : BlockId.find blocks next = .ok block) :
    Matches blocks (.access table made next progress) (.access table made block progress) := by
  unfold Advance.access
  cases progress.slots.perform table made with
  | error error => exact .halt _
  | ok slots => exact .proceed _ found

theorem choose (subject : Temp) (progress : Progress) {aim : Value → NodeId}
    {target : Value → BlockId}
    (found : ∀ value, BlockId.find blocks (aim value) = .ok (target value)) :
    Matches blocks (.choose subject aim progress) (.choose subject target progress) := by
  unfold Advance.choose
  cases progress.slots.read subject with
  | error error => exact .halt _
  | ok value => exact .proceed _ (found value)

theorem bind (bindings : List Binding) (progress : Progress)
    (found : BlockId.find blocks next = .ok block) :
    Matches blocks (.bind bindings next progress) (.bind bindings block progress) := by
  unfold Advance.bind
  cases progress.slots.capture bindings with
  | error error => exact .halt _
  | ok bound => exact .proceed _ found

theorem guard (oracle : GuardOracle) (arm : Nat) (bindings : List Binding) (condition : Guard)
    (progress : Progress) {rejected : NodeId} {rejectedBlock : BlockId}
    (found : BlockId.find blocks next = .ok block)
    (rejectedFound : BlockId.find blocks rejected = .ok rejectedBlock) :
    Matches blocks (.guard oracle arm bindings condition next (some rejected) progress)
      (.guard oracle arm bindings condition block (some rejectedBlock) progress) := by
  unfold Advance.guard
  cases progress.slots.capture bindings with
  | error error => exact .halt _
  | ok bound =>
      cases answered : oracle progress.calls ⟨condition, bound⟩ with
      | error error =>
          simp only [answered]
          exact .halt _
      | ok accepts =>
          cases accepts with
          | true =>
              simp only [answered]
              exact .proceed _ found
          | false =>
              simp only [answered]
              exact .proceed _ rejectedFound

end Advance.Matches

/-- A node and the exit that it is left by, with all edges turned into blocks. -/
inductive Node.LeavesBy (blocks : Array (Option BlockId)) : Node → Exit → Prop
  | access {next : NodeId} {block : BlockId} (made : Access)
      (found : BlockId.find blocks next = .ok block) :
      LeavesBy blocks (.access made next) (.access made block)
  | test {onTrue onFalse : NodeId} {trueBlock falseBlock : BlockId} (asked : Test)
      (foundTrue : BlockId.find blocks onTrue = .ok trueBlock)
      (foundFalse : BlockId.find blocks onFalse = .ok falseBlock) :
      LeavesBy blocks (.test asked onTrue onFalse) (.branch asked trueBlock falseBlock)
  | bind {accepted : NodeId} {block : BlockId} (arm : Nat) (label : Label)
      (bindings : List Binding) (rejected : Option NodeId)
      (found : BlockId.find blocks accepted = .ok block) :
      LeavesBy blocks (.bind arm label bindings none accepted rejected) (.bind arm bindings block)
  | guard {accepted rejected : NodeId} {block rejectedBlock : BlockId} (arm : Nat) (label : Label)
      (bindings : List Binding) (condition : Guard)
      (found : BlockId.find blocks accepted = .ok block)
      (rejectedFound : BlockId.find blocks rejected = .ok rejectedBlock) :
      LeavesBy blocks (.bind arm label bindings (some condition) accepted (some rejected))
        (.guard arm bindings condition block rejectedBlock)
  | success (arm : Nat) (label : Label) : LeavesBy blocks (.success arm label) (.goto arm label)
  | failure : LeavesBy blocks .failure .fail

theorem Node.exit_eq_ok {blocks : Array (Option BlockId)} {id : NodeId} {node : Node} {exit : Exit}
    (laidOut : node.exit blocks id = .ok exit) : node.LeavesBy blocks exit := by
  cases node with
  | access made next =>
      obtain ⟨block, found, finished⟩ := bind_eq_ok.mp laidOut
      obtain rfl := pure_eq_ok.mp finished
      exact .access made found
  | test asked onTrue onFalse =>
      obtain ⟨trueBlock, foundTrue, rest⟩ := bind_eq_ok.mp laidOut
      obtain ⟨falseBlock, foundFalse, finished⟩ := bind_eq_ok.mp rest
      obtain rfl := pure_eq_ok.mp finished
      exact .test asked foundTrue foundFalse
  | bind arm label bindings condition accepted rejected =>
      cases condition with
      | none =>
          obtain ⟨block, found, finished⟩ := bind_eq_ok.mp laidOut
          obtain rfl := pure_eq_ok.mp finished
          exact .bind arm label bindings rejected found
      | some condition =>
          obtain ⟨block, found, rest⟩ := bind_eq_ok.mp laidOut
          cases rejected with
          | none => exact absurd rest (by simp [throw, throwThe, MonadExceptOf.throw])
          | some rejected =>
              obtain ⟨rejectedBlock, rejectedFound, finished⟩ := bind_eq_ok.mp rest
              obtain rfl := pure_eq_ok.mp finished
              exact .guard arm label bindings condition found rejectedFound
  | success arm label =>
      obtain rfl := pure_eq_ok.mp laidOut
      exact .success arm label
  | failure =>
      obtain rfl := pure_eq_ok.mp laidOut
      exact .failure

namespace Node.LeavesBy

variable {blocks : Array (Option BlockId)} {node : Node} {exit : Exit}

theorem advance_matches (leaves : node.LeavesBy blocks exit) (table : AccessTable)
    (isInstance : Value → Ty → Bool) (oracle : GuardOracle) (progress : Progress) :
    Advance.Matches blocks (node.advanceBy table isInstance oracle progress)
      (exit.advanceBy table isInstance oracle progress) := by
  cases leaves with
  | access made found => exact .access table made progress found
  | test asked foundTrue foundFalse =>
      apply Advance.Matches.choose asked.subject progress
      intro value
      split
      · exact foundTrue
      · exact foundFalse
  | bind arm _ bindings _ found => exact .bind bindings progress found
  | guard arm _ bindings condition found rejectedFound =>
      exact .guard oracle arm bindings condition progress found rejectedFound
  | success | failure => exact .halt _

theorem isDispatch (leaves : node.LeavesBy blocks exit) : exit.isDispatch = false := by
  cases leaves <;> rfl

end Node.LeavesBy

def Link.Enters (blocks : Array (Option BlockId)) (link : Link) (entry : Const × BlockId) : Prop :=
  entry.1 = link.constant ∧ BlockId.find blocks link.target = .ok entry.2

theorem Exit.find_target {blocks : Array (Option BlockId)} {links : List Link}
    {entries : List (Const × BlockId)} (paired : List.Forall₂ (Link.Enters blocks) links entries)
    {fallback : NodeId} {default : BlockId}
    (foundDefault : BlockId.find blocks fallback = .ok default) (value : Value) :
    BlockId.find blocks (Chain.exitFor ⟨links, fallback⟩ value) =
      .ok (Exit.target entries default value) := by
  unfold Chain.exitFor Exit.target
  induction paired with
  | nil => exact foundDefault
  | @cons link entry links others entered _ ih =>
      obtain ⟨sameConstant, found⟩ := entered
      simp only [List.find?_cons, sameConstant]
      cases value.equals link.constant with
      | true => exact found
      | false => exact ih

theorem Link.constants_eq {blocks : Array (Option BlockId)} {links : List Link}
    {entries : List (Const × BlockId)} (paired : List.Forall₂ (Link.Enters blocks) links entries) :
    entries.map (·.1) = links.map (·.constant) := by
  induction paired with
  | nil => rfl
  | cons entered _ ih => rw [List.map_cons, List.map_cons, entered.1, ih]

theorem Chain.exists_entries {blocks : Array (Option BlockId)} {subject : Temp} {chain : Chain}
    {exit : Exit} (laidOut : chain.exit blocks subject = .ok exit) :
    ∃ entries default, exit = .dispatch subject entries default ∧
      List.Forall₂ (Link.Enters blocks) chain.links entries ∧
      BlockId.find blocks chain.default = .ok default := by
  obtain ⟨entries, mapped, rest⟩ := bind_eq_ok.mp laidOut
  obtain ⟨default, foundDefault, finished⟩ := bind_eq_ok.mp rest
  obtain rfl := pure_eq_ok.mp finished
  refine ⟨entries, default, rfl, ?_, foundDefault⟩
  refine (mapM_eq_ok.mp mapped).imp fun link entry linked => ?_
  obtain ⟨target, found, made⟩ := bind_eq_ok.mp linked
  obtain rfl := pure_eq_ok.mp made
  exact ⟨rfl, found⟩

/-- A jump table has the constants of its chain, and leads to the block of the
node that the chain leads to. -/
theorem Chain.exit_eq_ok {blocks : Array (Option BlockId)} {subject : Temp} {chain : Chain}
    {exit : Exit} (laidOut : chain.exit blocks subject = .ok exit) :
    ∃ entries default, exit = .dispatch subject entries default ∧
      entries.map (·.1) = chain.links.map (·.constant) ∧
      ∀ value, BlockId.find blocks (chain.exitFor value) =
        .ok (Exit.target entries default value) := by
  obtain ⟨entries, default, rfl, paired, foundDefault⟩ := Chain.exists_entries laidOut
  exact ⟨entries, default, rfl, Link.constants_eq paired, Exit.find_target paired foundDefault⟩

namespace BlockPlan

variable {plan : BlockPlan} {table : AccessTable} {isInstance : Value → Ty → Bool} {oracle : GuardOracle}
  {fuel : Nat} {id : BlockId} {block : Block} {progress : Progress}

theorem runFromBy_halt {run : Run} (stored : plan.block? id = some block)
    (advanced : block.exit.advanceBy table isInstance oracle progress = .halt run) :
    plan.runFromBy table isInstance oracle (fuel + 1) id progress = some run := by
  simp [runFromBy, stored, advanced]

theorem runFromBy_proceed {next : BlockId} {after : Progress} (stored : plan.block? id = some block)
    (advanced : block.exit.advanceBy table isInstance oracle progress = .proceed next after) :
    plan.runFromBy table isInstance oracle (fuel + 1) id progress =
      plan.runFromBy table isInstance oracle fuel next after := by
  simp [runFromBy, stored, advanced]

end BlockPlan

namespace DecisionGraph

variable {graph : DecisionGraph} {plan : BlockPlan} {minTableEntries : Nat}

/-- The nodes that get a block, in the order of the blocks. -/
def kept (graph : DecisionGraph) (minTableEntries : Nat) : List NodeId :=
  graph.topologicalOrder.filter fun id =>
    !(Layout.plan graph minTableEntries graph.topologicalOrder).isAbsorbed id

theorem mem_order_of_kept {position : Nat} {id : NodeId}
    (found : (graph.kept minTableEntries)[position]? = some id) : id ∈ graph.topologicalOrder :=
  (List.mem_filter.mp (List.mem_of_getElem? found)).1

theorem kept_position_lt {first second : Nat} {id target : NodeId}
    (foundFirst : (graph.kept minTableEntries)[first]? = some id)
    (foundSecond : (graph.kept minTableEntries)[second]? = some target)
    (onward : graph.rank id < graph.rank target) : first < second := by
  have ordered : (graph.kept minTableEntries).Pairwise
      fun a b => graph.rank a < graph.rank b :=
    graph.pairwise_rank.filter _
  obtain ⟨firstInside, rfl⟩ := List.getElem?_eq_some_iff.mp foundFirst
  obtain ⟨secondInside, rfl⟩ := List.getElem?_eq_some_iff.mp foundSecond
  rw [List.pairwise_iff_getElem] at ordered
  rcases Nat.lt_trichotomy first second with before | rfl | after
  · exact before
  · omega
  · have := ordered second first secondInside firstInside after
    omega

theorem mem_kept_of_find {node : NodeId} {block : BlockId}
    (found : BlockId.find (BlockId.table graph.size (graph.kept minTableEntries)) node = .ok block) :
    node ∈ graph.kept minTableEntries :=
  List.mem_of_getElem? (BlockId.kept_of_find found)

theorem lower_eq_ok (lowered : graph.lower minTableEntries = .ok plan) :
    List.Forall₂ (fun id block =>
      graph.layOut (Layout.plan graph minTableEntries graph.topologicalOrder)
        (BlockId.table graph.size (graph.kept minTableEntries)) id = .ok block)
      (graph.kept minTableEntries) plan.blocks.toList := by
  obtain ⟨blocks, mapped, finished⟩ := bind_eq_ok.mp lowered
  obtain rfl := pure_eq_ok.mp finished
  exact mapM_eq_ok.mp mapped

theorem block?_of_lower (lowered : graph.lower minTableEntries = .ok plan) :
    plan.blocks.size = (graph.kept minTableEntries).length ∧
      ∀ (position : Nat) (id : NodeId), (graph.kept minTableEntries)[position]? = some id →
        ∃ block, plan.block? ⟨position⟩ = some block ∧
          graph.layOut (Layout.plan graph minTableEntries graph.topologicalOrder)
            (BlockId.table graph.size (graph.kept minTableEntries)) id = .ok block := by
  have paired := lower_eq_ok lowered
  refine ⟨by simpa using paired.length_eq.symm, fun position id found => ?_⟩
  obtain ⟨block, stored, laidOut⟩ := getElem?_of_forall₂ paired found
  exact ⟨block, by simpa [BlockPlan.block?] using stored, laidOut⟩

/-- A block stands for a node that heads a chain of the layout, or is left as its
node is. -/
theorem layOut_cases {layout : Layout} (grounded : layout.Grounded graph)
    {blocks : Array (Option BlockId)} {id : NodeId} {block : Block}
    (laidOut : graph.layOut layout blocks id = .ok block) :
    block.node = id ∧ ∃ node, graph.node? id = some node ∧
      ((∃ subject chain, layout.chains[id.index]?.join = some chain ∧
          graph.IsChain subject [] id chain ∧ chain.links ≠ [] ∧
          chain.exit blocks subject = .ok block.exit) ∨
        (layout.chains[id.index]?.join = none ∧ node.exit blocks id = .ok block.exit)) := by
  unfold layOut at laidOut
  cases found : graph.node? id with
  | none => simp [found] at laidOut
  | some node =>
      cases stored : layout.chains[id.index]?.join with
      | none =>
          simp only [found, stored] at laidOut
          obtain ⟨exit, left, finished⟩ := bind_eq_ok.mp laidOut
          obtain rfl := pure_eq_ok.mp finished
          exact ⟨rfl, node, rfl, Or.inr ⟨rfl, left⟩⟩
      | some chain =>
          obtain ⟨subject, isChain, notEmpty⟩ := grounded.chains id chain stored
          cases isChain with
          | stop => exact absurd rfl notEmpty
          | link compared apart behind =>
              obtain ⟨headFound, _⟩ := node?_of_comparison? compared
              obtain rfl := Option.some.inj (found.symm.trans headFound)
              simp only [found, stored] at laidOut
              obtain ⟨exit, left, finished⟩ := bind_eq_ok.mp laidOut
              obtain rfl := pure_eq_ok.mp finished
              exact ⟨rfl, _, rfl,
                Or.inl ⟨subject, _, rfl, .link compared apart behind, notEmpty, left⟩⟩

theorem layOut_eq_ok {layout : Layout} (grounded : layout.Grounded graph)
    {blocks : Array (Option BlockId)} {id : NodeId} {block : Block}
    (laidOut : graph.layOut layout blocks id = .ok block) :
    ∃ node, graph.node? id = some node ∧
      ((∃ subject chain, graph.IsChain subject [] id chain ∧ chain.links ≠ [] ∧
          chain.exit blocks subject = .ok block.exit) ∨
        node.exit blocks id = .ok block.exit) := by
  obtain ⟨_, node, found, ⟨subject, chain, _, isChain, notEmpty, left⟩ | ⟨_, left⟩⟩ :=
    layOut_cases grounded laidOut
  · exact ⟨node, found, Or.inl ⟨subject, chain, isChain, notEmpty, left⟩⟩
  · exact ⟨node, found, Or.inr left⟩

/-- From the position of a kept node on, the plan runs as the walk from that
node does. The induction goes down the nodes that are still ahead. -/
theorem lower_simulates (acyclic : graph.Acyclic)
    (lowered : graph.lower minTableEntries = .ok plan) (isInstance : Value → Ty → Bool)
    (oracle : GuardOracle) (ahead : Nat) :
    ∀ (position fuel : Nat) (id : NodeId) (progress : Progress),
      graph.topologicalOrder.length ≤ graph.rank id + ahead →
      (graph.kept minTableEntries)[position]? = some id →
      (graph.kept minTableEntries).length ≤ position + fuel →
      ∃ run, graph.Ends isInstance oracle id progress run ∧
        plan.runFromBy graph.table isInstance oracle fuel ⟨position⟩ progress = some run := by
  induction ahead with
  | zero =>
      intro position fuel id progress enough found _
      have := rank_lt_length (mem_order_of_kept found)
      omega
  | succ ahead ih =>
      intro position fuel id progress enough found bounded
      have member := mem_order_of_kept found
      have positionInside := (List.getElem?_eq_some_iff.mp found).1
      obtain ⟨fuel, rfl⟩ : ∃ less, fuel = less + 1 := ⟨fuel - 1, by omega⟩
      obtain ⟨block, stored, laidOut⟩ := (block?_of_lower lowered).2 position id found
      have onward : ∀ (target : NodeId) (next : BlockId) (after : Progress),
          BlockId.find (BlockId.table graph.size (graph.kept minTableEntries)) target = .ok next →
          (target.index < graph.size → graph.rank id < graph.rank target) →
          ∃ run, graph.Ends isInstance oracle target after run ∧
            plan.runFromBy graph.table isInstance oracle fuel next after = some run := by
        intro target next after foundBlock higher
        have targetKept := BlockId.kept_of_find foundBlock
        have targetInside := ((graph.mem_topologicalOrder target).mp
          (mem_order_of_kept targetKept)).2
        have further := higher targetInside
        have later := kept_position_lt found targetKept further
        exact ih next.index fuel target after (by omega) targetKept (by omega)
      obtain ⟨node, foundNode, ⟨subject, chain, isChain, notEmpty, left⟩ | left⟩ :=
        layOut_eq_ok (Layout.plan_grounded graph minTableEntries) laidOut
      · obtain ⟨entries, default, isDispatch, _, leads⟩ := Chain.exit_eq_ok left
        have dispatched : block.exit.advanceBy graph.table isInstance oracle progress =
            Advance.choose subject (Exit.target entries default) progress := by
          rw [isDispatch]
          rfl
        cases filled : progress.slots.get? subject with
        | none =>
            have halted : Advance.choose subject (Exit.target entries default) progress =
                .halt (progress.stop (.error (.emptySlot subject))) := by
              simp only [Advance.choose, Slots.read, filled]
            refine ⟨_, ?_, BlockPlan.runFromBy_halt stored (dispatched.trans halted)⟩
            cases isChain with
            | stop => exact absurd rfl notEmpty
            | link compared _ _ =>
                refine .halt (node?_of_comparison? compared).1 ?_
                simp [Node.advanceBy, Advance.choose, Slots.read, filled]
        | some value =>
            have proceeded : Advance.choose subject (Exit.target entries default) progress =
                .proceed (Exit.target entries default value) progress := by
              simp only [Advance.choose, Slots.read, filled]
            obtain ⟨run, ends, runs⟩ := onward (chain.exitFor value)
              (Exit.target entries default value) progress (leads value)
              (rank_lt_of_transGen acyclic member (isChain.transGen_exitFor notEmpty value))
            exact ⟨run, isChain.ends filled ends,
              (BlockPlan.runFromBy_proceed stored (dispatched.trans proceeded)).trans runs⟩
      · have matched := (Node.exit_eq_ok left).advance_matches graph.table isInstance oracle progress
        generalize advanced : node.advanceBy graph.table isInstance oracle progress = walked at matched
        generalize blockAdvanced : block.exit.advanceBy graph.table isInstance oracle progress = executed
          at matched
        cases matched with
        | halt run =>
            exact ⟨run, .halt foundNode advanced, BlockPlan.runFromBy_halt stored blockAdvanced⟩
        | proceed after foundBlock =>
            rename_i target next
            obtain ⟨run, ends, runs⟩ := onward target next after foundBlock
              (rank_lt_of_edge acyclic member
                (edge_of_node foundNode (Node.mem_successors_of_proceedBy advanced)))
            exact ⟨run, .proceed foundNode advanced ends,
              (BlockPlan.runFromBy_proceed stored blockAdvanced).trans runs⟩

/-- The root has the first block: it is listed first, and no chain can have come
back to it. -/
theorem kept_root (acyclic : graph.Acyclic) (inside : graph.root.index < graph.size) :
    (graph.kept minTableEntries)[0]? = some graph.root := by
  have notAbsorbed : (Layout.plan graph minTableEntries graph.topologicalOrder).isAbsorbed
      graph.root = false := by
    by_contra marked
    obtain ⟨head, member, path⟩ := (Layout.plan_grounded graph minTableEntries).absorbed
      graph.root (by simpa using marked)
    have reachable := ((graph.mem_topologicalOrder head).mp member).1
    exact acyclic graph.root .refl (Relation.TransGen.trans_right reachable path)
  obtain ⟨rest, order⟩ := List.head?_eq_some_iff.mp (graph.head?_topologicalOrder inside)
  unfold kept
  rw [order, List.filter_cons_of_pos (by rw [← order, notAbsorbed]; rfl)]
  rfl

/-- Executing the plan of a graph is walking through the graph, however the runtime
answers type tests, and in no jump table does a value equal two constants. -/
theorem run_lower_eq_walk (inside : graph.root.index < graph.size) (acyclic : graph.Acyclic)
    (lowered : graph.lower minTableEntries = .ok plan) (isInstance : Value → Ty → Bool)
    (oracle : GuardOracle) (input : Value) :
    plan.runBy graph.table isInstance oracle input =
        some (graph.walkBy isInstance oracle input) ∧
      ∀ block ∈ plan.blocks, ∀ subject entries default,
        block.exit = .dispatch subject entries default →
        entries.Pairwise fun first second => ∀ value : Value,
          value.equals first.1 = true → value.equals second.1 = false := by
  constructor
  · obtain ⟨run, ends, runs⟩ := lower_simulates acyclic lowered isInstance oracle
      graph.topologicalOrder.length 0 plan.blocks.size graph.root (.start graph.table input)
      (by omega) (kept_root acyclic inside) (by rw [(block?_of_lower lowered).1]; omega)
    rw [ends.walkBy_eq acyclic]
    exact runs
  · intro block member subject entries default isDispatch
    obtain ⟨position, stored⟩ := Array.getElem?_of_mem member
    have positionInside := (Array.getElem?_eq_some_iff.mp stored).1
    obtain ⟨sized, laidOut⟩ := block?_of_lower lowered
    have inKept : position < (graph.kept minTableEntries).length := by omega
    obtain ⟨other, otherStored, left⟩ := laidOut position _ (List.getElem?_eq_getElem inKept)
    obtain rfl : block = other := Option.some.inj (stored.symm.trans otherStored)
    obtain ⟨node, _, ⟨_, chain, isChain, _, left⟩ | left⟩ :=
      layOut_eq_ok (Layout.plan_grounded graph minTableEntries) left
    · obtain ⟨others, _, exitEq, constants, _⟩ := Chain.exit_eq_ok left
      rw [isDispatch] at exitEq
      cases exitEq
      have differ : (chain.links.map (·.constant)).Pairwise fun first second =>
          ∀ value : Value, value.equals first = true → value.equals second = false :=
        List.pairwise_map.mpr isChain.constants_differ.1
      rw [← constants] at differ
      exact List.pairwise_map.mp differ
    · have := (Node.exit_eq_ok left).isDispatch
      rw [isDispatch] at this
      contradiction

/-- Three comparisons of the match input in a row. -/
def threeWay : DecisionGraph where
  nodes := #[.success 0 ⟨0⟩, .success 1 ⟨1⟩, .success 2 ⟨2⟩, .failure,
    .test ⟨.root, .equals (.int 3)⟩ ⟨2⟩ ⟨3⟩, .test ⟨.root, .equals (.int 2)⟩ ⟨1⟩ ⟨4⟩,
    .test ⟨.root, .equals (.int 1)⟩ ⟨0⟩ ⟨5⟩]
  root := ⟨6⟩
  table := .ofInput ⟨0⟩
  armCount := 3

/-- They become one jump table. -/
theorem run_lower_threeWay :
    threeWay.root.index < threeWay.size ∧ threeWay.Acyclic ∧
      ∃ plan, threeWay.lower 3 = .ok plan ∧ plan.jumpTables.length = 1 ∧
        plan.runBy threeWay.table (fun _ _ => true) (.ofFunction fun _ _ => .ok true) (.int 2) =
          some (threeWay.walkBy (fun _ _ => true) (.ofFunction fun _ _ => .ok true) (.int 2)) := by
  have inside : threeWay.root.index < threeWay.size := by decide
  have acyclic : threeWay.Acyclic := acyclic_of_descending (by decide)
  have lowered : threeWay.lower 3 = .ok ⟨#[
      ⟨⟨6⟩, .dispatch .root [(.int 1, ⟨4⟩), (.int 2, ⟨3⟩), (.int 3, ⟨2⟩)] ⟨1⟩⟩, ⟨⟨3⟩, .fail⟩,
      ⟨⟨2⟩, .goto 2 ⟨2⟩⟩, ⟨⟨1⟩, .goto 1 ⟨1⟩⟩, ⟨⟨0⟩, .goto 0 ⟨0⟩⟩]⟩ := by cbv
  exact ⟨inside, acyclic, _, lowered, rfl,
    (run_lower_eq_walk inside acyclic lowered _ _ _).1⟩

end DecisionGraph

end MatchCompiler
