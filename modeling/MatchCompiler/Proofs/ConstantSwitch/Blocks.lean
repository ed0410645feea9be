import Mathlib
import MatchCompiler.Proofs.ConstantSwitch.Plan

/-!
# The blocks of a ladder

With a table, a ladder keeps the comparison on top and the leaves. Without one it
keeps all nodes, and every comparison is a branch.
-/

set_option autoImplicit false

namespace MatchCompiler

def Exit.isBranch : Exit → Bool
  | .branch .. => true
  | _ => false

namespace BlockPlan

def exit? (plan : BlockPlan) (id : BlockId) : Option Exit :=
  (plan.block? id).map (·.exit)

def branches (plan : BlockPlan) : List Block :=
  plan.blocks.toList.filter (·.exit.isBranch)

/-- A table of the input's constants and what the arms return, and nothing else:
the entry leads from the constant of each arm to a block that returns its label,
and from every other value to one that returns the last arm's. -/
structure IsOneTable (plan : BlockPlan) (cases : List (Const × Label)) (default : Label) :
    Prop where
  size : plan.blocks.size = cases.length + 2
  tables : plan.jumpTables.length = 1
  entry : ∃ entries fallback,
    plan.exit? entry = some (.dispatch .root entries fallback) ∧
      entries.map (fun entry => (entry.1, plan.exit? entry.2)) =
        cases.zipIdx.map (fun (entry, arm) => (entry.1, some (.goto arm entry.2))) ∧
      plan.exit? fallback = some (.goto cases.length default)

end BlockPlan

theorem countP_of_forall₂ {α β : Type} {related : α → β → Prop} {inputs : List α}
    {outputs : List β} {ofInput : α → Bool} {ofOutput : β → Bool}
    (pairs : List.Forall₂ related inputs outputs)
    (agree : ∀ input output, related input output → ofOutput output = ofInput input) :
    outputs.countP ofOutput = inputs.countP ofInput := by
  induction pairs with
  | nil => rfl
  | cons relates _ ih => rw [List.countP_cons, List.countP_cons, agree _ _ relates, ih]

/-! ## Blocks of leaves -/

namespace DecisionGraph

section Leaves

variable {graph : DecisionGraph} {plan : BlockPlan} {minEntries : Nat} {id : NodeId} {arm : Nat}
  {label : Label}

theorem exit_of_leaf {layout : Layout} (grounded : layout.Grounded graph)
    {blocks : Array (Option BlockId)} {block : Block}
    (laidOut : graph.layOut layout blocks id = .ok block)
    (found : graph.node? id = some (.success arm label)) : block.exit = .goto arm label := by
  obtain ⟨_, node, isNode, ⟨subject, chain, _, isChain, notEmpty, _⟩ | ⟨_, left⟩⟩ :=
    layOut_cases grounded laidOut
  · cases isChain with
    | stop => exact absurd rfl notEmpty
    | link compared =>
        have isTest := (node?_of_comparison? compared).1
        cases found.symm.trans isTest
  · obtain rfl := Option.some.inj (found.symm.trans isNode)
    have leaves := Node.exit_eq_ok left
    generalize block.exit = exit at leaves ⊢
    cases leaves with
    | success => rfl

theorem exit?_of_find (lowered : graph.lower minEntries = .ok plan)
    (found : graph.node? id = some (.success arm label)) {number : BlockId}
    (placed : BlockId.find (BlockId.table graph.size (graph.kept minEntries)) id = .ok number) :
    plan.exit? number = some (.goto arm label) := by
  obtain ⟨block, stored, laidOut⟩ :=
    (block?_of_lower lowered).2 number.index id (BlockId.kept_of_find placed)
  have stored : plan.block? number = some block := stored
  unfold BlockPlan.exit?
  rw [stored, Option.map_some, exit_of_leaf (Layout.plan_grounded graph minEntries) laidOut found]

def LaysOut (graph : DecisionGraph) (minEntries : Nat) (id : NodeId) (block : Block) : Prop :=
  graph.layOut (Layout.plan graph minEntries graph.topologicalOrder)
    (BlockId.table graph.size (graph.kept minEntries)) id = .ok block

theorem countP_blocks (lowered : graph.lower minEntries = .ok plan) {ofNode : NodeId → Bool}
    {ofBlock : Block → Bool}
    (agree : ∀ id block, graph.LaysOut minEntries id block → ofBlock block = ofNode id) :
    plan.blocks.toList.countP ofBlock = (graph.kept minEntries).countP ofNode :=
  countP_of_forall₂ (lower_eq_ok lowered) agree

end Leaves

/-! ## The nodes that are kept -/

variable {type : Ty} {cases : List (Const × Label)} {default : Label} {minEntries : Nat}
  {id : NodeId} {plan : BlockPlan}

theorem acyclic_ladder : (ladder type cases default).Acyclic := by
  refine acyclic_of_descending fun id node found target member => ?_
  obtain ⟨position, inside, isId, leads⟩ := edge_ladder_iff.mp (edge_of_node found member)
  obtain rfl := NodeId.mk.inj isId
  rcases leads with rfl | rfl
  all_goals
    dsimp only
    omega

theorem reaches_down {position : Nat} (inside : position ≤ cases.length) :
    (ladder type cases default).Reaches (ladder type cases default).root
      ⟨2 * cases.length - position⟩ := by
  induction position with
  | zero => exact .refl
  | succ position ih =>
      exact (ih (Nat.le_of_succ_le inside)).tail
        (edge_ladder_iff.mpr ⟨position, inside, rfl, Or.inr rfl⟩)

theorem mem_topologicalOrder_ladder :
    id ∈ (ladder type cases default).topologicalOrder ↔ id.index ≤ 2 * cases.length := by
  refine ⟨index_le_of_listed, fun inside => ?_⟩
  rw [mem_topologicalOrder, size_ladder]
  refine ⟨?_, Nat.lt_succ_of_le inside⟩
  rcases Nat.lt_or_ge id.index cases.length with low | high
  · exact (reaches_down (Nat.le_of_lt low)).tail
      (edge_ladder_iff.mpr ⟨id.index, low, rfl, Or.inl rfl⟩)
  · have place : id = ⟨2 * cases.length - (2 * cases.length - id.index)⟩ :=
      NodeId.ext (by dsimp only; omega)
    rw [place]
    exact reaches_down (by omega)

def nodesBelow (bound : Nat) : List NodeId :=
  (List.range bound).map NodeId.mk

@[simp] theorem length_nodesBelow (bound : Nat) : (nodesBelow bound).length = bound := by
  rw [nodesBelow, List.length_map, List.length_range]

theorem mem_nodesBelow {bound : Nat} : id ∈ nodesBelow bound ↔ id.index < bound := by
  simp only [nodesBelow, List.mem_map, List.mem_range]
  exact ⟨fun ⟨index, inside, same⟩ => same ▸ inside, fun inside => ⟨id.index, inside, rfl⟩⟩

theorem nodup_nodesBelow (bound : Nat) : (nodesBelow bound).Nodup :=
  List.nodup_range.map fun _ _ same => NodeId.mk.inj same

theorem countP_nodesBelow (low high : Nat) :
    (nodesBelow (low + high)).countP (fun id => decide (low ≤ id.index)) = high := by
  induction high with
  | zero =>
      refine List.countP_eq_zero.mpr fun id member => ?_
      simpa using mem_nodesBelow.mp member
  | succ high ih =>
      unfold nodesBelow at ih ⊢
      rw [← Nat.add_assoc, List.range_succ, List.map_append, List.countP_append, ih]
      simp

theorem kept_ladder_of_short (ladderable : Ladderable cases) (short : cases.length < minEntries) :
    List.Perm ((ladder type cases default).kept minEntries)
      (nodesBelow (cases.length + 1 + cases.length)) := by
  unfold kept
  rw [plan_ladder_of_short ladderable short]
  refine (List.perm_ext_iff_of_nodup ((nodup_topologicalOrder _).filter _)
    (nodup_nodesBelow _)).mpr fun id => ?_
  rw [List.mem_filter, Layout.isAbsorbed_empty, mem_nodesBelow, mem_topologicalOrder_ladder]
  exact ⟨fun kept => by omega, fun inside => ⟨by omega, rfl⟩⟩

theorem kept_ladder_of_long (ladderable : Ladderable cases) (notEmpty : cases ≠ [])
    (long : minEntries ≤ cases.length) :
    List.Perm ((ladder type cases default).kept minEntries)
      (⟨2 * cases.length⟩ :: nodesBelow (cases.length + 1)) := by
  have positive := List.length_pos_iff.mpr notEmpty
  unfold kept
  rw [plan_ladder_of_long ladderable long notEmpty]
  refine (List.perm_ext_iff_of_nodup ((nodup_topologicalOrder _).filter _)
    (List.nodup_cons.mpr ⟨fun isLeaf => ?_, nodup_nodesBelow _⟩)).mpr fun id => ?_
  · have low := mem_nodesBelow.mp isLeaf
    dsimp only at low
    omega
  · rw [List.mem_filter, Bool.not_eq_true', ← Bool.not_eq_true, isAbsorbed_tableLayout,
      List.mem_cons, mem_nodesBelow, mem_topologicalOrder_ladder]
    constructor
    · rintro ⟨inside, free⟩
      rcases Nat.lt_or_ge id.index (2 * cases.length) with below | top
      · exact Or.inr (by omega)
      · exact Or.inl (NodeId.ext (Nat.le_antisymm inside top))
    · rintro (rfl | low)
      · exact ⟨Nat.le_refl _, fun taken => Nat.lt_irrefl _ taken.2⟩
      · exact ⟨by omega, by omega⟩

/-! ## Without a table -/

theorem exit_of_short (ladderable : Ladderable cases) (short : cases.length < minEntries)
    {block : Block} (laidOut : (ladder type cases default).LaysOut minEntries id block) :
    block.exit.isDispatch = false ∧
      block.exit.isBranch = decide (cases.length + 1 ≤ id.index) := by
  obtain ⟨_, node, found, ⟨_, chain, stored, _⟩ | ⟨_, left⟩⟩ :=
    layOut_cases (Layout.plan_grounded _ minEntries) laidOut
  · rw [plan_ladder_of_short ladderable short] at stored
    cases stored.symm.trans (Layout.chain?_empty (ladder type cases default) id)
  · have leaves := Node.exit_eq_ok left
    refine ⟨leaves.isDispatch, ?_⟩
    generalize block.exit = exit at leaves ⊢
    rcases node?_ladder_cases found with ⟨low, _, rfl⟩ | ⟨position, _, _, isCase, rfl, rfl⟩
    · cases leaves with
      | success => exact (decide_eq_false (Nat.not_lt.mpr low)).symm
    · have inside := (List.getElem?_eq_some_iff.mp isCase).1
      cases leaves with
      | test => exact (decide_eq_true (by dsimp only; omega)).symm

/-- A ladder that is too short for a table has a branch for each constant. -/
theorem lower_ladder_of_short (ladderable : Ladderable cases) (short : cases.length < minEntries)
    (lowered : (ladder type cases default).lower minEntries = .ok plan) :
    plan.jumpTables = [] ∧ plan.branches.length = cases.length := by
  constructor
  · refine List.filter_eq_nil_iff.mpr fun block member => ?_
    obtain ⟨id, _, laidOut⟩ := exists_of_mem_forall₂ (lower_eq_ok lowered) member
    rw [(exit_of_short ladderable short laidOut).1]
    exact Bool.false_ne_true
  · unfold BlockPlan.branches
    rw [← List.countP_eq_length_filter,
      countP_blocks lowered fun id block laidOut => (exit_of_short ladderable short laidOut).2,
      (kept_ladder_of_short ladderable short).countP_eq, countP_nodesBelow]

/-! ## With a table -/

theorem entries_ladder (lowered : (ladder type cases default).lower minEntries = .ok plan)
    {rest : List (Const × Label)} : ∀ {arm : Nat} {entries : List (Const × BlockId)},
      cases.drop arm = rest →
      List.Forall₂ (Link.Enters (BlockId.table (ladder type cases default).size
        ((ladder type cases default).kept minEntries)))
        (descent (2 * cases.length) arm rest) entries →
      entries.map (fun entry => (entry.1, plan.exit? entry.2)) =
        (rest.zipIdx arm).map (fun (entry, arm) => (entry.1, some (.goto arm entry.2))) := by
  induction rest with
  | nil =>
      intro arm entries _ paired
      cases paired
      rfl
  | cons first rest ih =>
      intro arm entries split paired
      obtain ⟨constant, label⟩ := first
      obtain ⟨found, splitRest⟩ := found_of_drop split
      rw [descent] at paired
      cases paired with
      | cons entered behind =>
          obtain ⟨sameConstant, placed⟩ := entered
          rw [List.map_cons, List.zipIdx_cons, List.map_cons, ih splitRest behind, sameConstant,
            exit?_of_find lowered (node?_ladder_leaf found) placed]

theorem chain?_tableLayout {chain : Chain} : (tableLayout type cases default).chain? id = some chain ↔
    id = ⟨2 * cases.length⟩ ∧ chain = ⟨descent (2 * cases.length) 0 cases, ⟨cases.length⟩⟩ := by
  constructor
  · intro stored
    refine (Layout.chain?_take stored).resolve_right fun before => ?_
    rw [Layout.chain?_empty] at before
    cases before.2
  · rintro ⟨rfl, rfl⟩
    refine Layout.chain?_take_self ?_
    simp [Layout.empty]

theorem subject_of_comparison?_ladder {subject : Temp} {link : Link} {next : NodeId}
    (compared : (ladder type cases default).comparison? id = some (subject, link, next)) :
    subject = .root := by
  rcases node?_ladder_cases (node?_of_comparison? compared).1 with
    ⟨_, _, isLeaf⟩ | ⟨_, _, _, _, _, isTest⟩
  · cases isLeaf
  · exact congrArg Test.subject (Node.test.inj isTest).1

section Long

variable (ladderable : Ladderable cases) (notEmpty : cases ≠ []) (long : minEntries ≤ cases.length)

include ladderable notEmpty long

theorem chain?_of_long {chain : Chain} :
    (Layout.plan (ladder type cases default) minEntries
        (ladder type cases default).topologicalOrder).chain? id = some chain ↔
      id = ⟨2 * cases.length⟩ ∧ chain = ⟨descent (2 * cases.length) 0 cases, ⟨cases.length⟩⟩ := by
  rw [plan_ladder_of_long ladderable long notEmpty]
  exact chain?_tableLayout

theorem isDispatch_of_long {block : Block}
    (laidOut : (ladder type cases default).LaysOut minEntries id block) :
    block.exit.isDispatch = decide (id = ⟨2 * cases.length⟩) := by
  obtain ⟨_, node, found, ⟨_, chain, stored, _, _, left⟩ | ⟨unstored, left⟩⟩ :=
    layOut_cases (Layout.plan_grounded _ minEntries) laidOut
  · obtain ⟨isTop, rfl⟩ := (chain?_of_long ladderable notEmpty long).mp stored
    obtain ⟨_, _, isExit, _, _⟩ := Chain.exists_entries left
    rw [isExit, decide_eq_true isTop]
    rfl
  · have other : id ≠ ⟨2 * cases.length⟩ := fun isTop =>
      absurd (unstored.symm.trans ((chain?_of_long ladderable notEmpty long).mpr ⟨isTop, rfl⟩))
        nofun
    rw [(Node.exit_eq_ok left).isDispatch, decide_eq_false other]

theorem exit_of_long {block : Block}
    (laidOut : (ladder type cases default).LaysOut minEntries ⟨2 * cases.length⟩ block) :
    ∃ entries fallback, block.exit = .dispatch .root entries fallback ∧
      List.Forall₂ (Link.Enters (BlockId.table (ladder type cases default).size
        ((ladder type cases default).kept minEntries)))
        (descent (2 * cases.length) 0 cases) entries ∧
      BlockId.find (BlockId.table (ladder type cases default).size
        ((ladder type cases default).kept minEntries)) ⟨cases.length⟩ = .ok fallback := by
  obtain ⟨_, _, _, ⟨subject, chain, stored, isChain, hasLinks, left⟩ | ⟨unstored, _⟩⟩ :=
    layOut_cases (Layout.plan_grounded _ minEntries) laidOut
  · obtain ⟨_, rfl⟩ := (chain?_of_long ladderable notEmpty long).mp stored
    obtain ⟨entries, fallback, isExit, paired, placed⟩ := Chain.exists_entries left
    obtain ⟨link, member⟩ := List.exists_mem_of_ne_nil _ hasLinks
    obtain ⟨_, compared⟩ := isChain.compared_of_mem member
    obtain rfl := subject_of_comparison?_ladder compared
    exact ⟨entries, fallback, isExit, paired, placed⟩
  · cases unstored.symm.trans ((chain?_of_long ladderable notEmpty long).mpr ⟨rfl, rfl⟩)

/-- A ladder that is long enough is one table. -/
theorem lower_ladder_of_long (lowered : (ladder type cases default).lower minEntries = .ok plan) :
    plan.IsOneTable cases default := by
  have kept : List.Perm ((ladder type cases default).kept minEntries)
      (⟨2 * cases.length⟩ :: nodesBelow (cases.length + 1)) :=
    kept_ladder_of_long ladderable notEmpty long
  refine ⟨?size, ?tables, ?entry⟩
  case size =>
    rw [(block?_of_lower lowered).1, kept.length_eq, List.length_cons, length_nodesBelow]
  case tables =>
    have leaves : (nodesBelow (cases.length + 1)).countP
        (fun id => decide (id = ⟨2 * cases.length⟩)) = 0 := by
      refine List.countP_eq_zero.mpr fun id isLeaf isTop => ?_
      have low := mem_nodesBelow.mp isLeaf
      rw [of_decide_eq_true isTop] at low
      have positive := List.length_pos_iff.mpr notEmpty
      dsimp only at low
      omega
    unfold BlockPlan.jumpTables
    rw [← List.countP_eq_length_filter,
      countP_blocks lowered fun _ _ => isDispatch_of_long ladderable notEmpty long,
      kept.countP_eq, List.countP_cons, leaves, if_pos (decide_eq_true rfl)]
  case entry =>
    have inside : (ladder type cases default).root.index < (ladder type cases default).size := by
      rw [size_ladder]
      exact Nat.lt_succ_self _
    obtain ⟨block, stored, laidOut⟩ :=
      (block?_of_lower lowered).2 0 _ (kept_root acyclic_ladder inside)
    obtain ⟨entries, fallback, isExit, paired, placed⟩ :=
      exit_of_long ladderable notEmpty long laidOut
    refine ⟨entries, fallback, ?_, entries_ladder lowered rfl paired,
      exit?_of_find lowered node?_ladder_default placed⟩
    have stored : plan.block? BlockPlan.entry = some block := stored
    rw [BlockPlan.exit?, stored, Option.map_some, isExit]

end Long

end DecisionGraph

end MatchCompiler
