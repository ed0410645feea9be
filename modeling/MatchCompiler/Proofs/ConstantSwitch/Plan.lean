import Mathlib
import MatchCompiler.Proofs.BlockPlan.Placement
import MatchCompiler.Proofs.ConstantSwitch.Ladder

/-!
# The plan of a ladder

The chain at a comparison of a ladder takes in all comparisons below it. So the
chain at the root is the longest one: if it makes a table, no other comparison is
left, and if it is too short for one, all others are.
-/

set_option autoImplicit false

namespace MatchCompiler

theorem found_of_drop {α : Type} {items rest : List α} {item : α} {position : Nat}
    (split : items.drop position = item :: rest) :
    items[position]? = some item ∧ items.drop (position + 1) = rest := by
  constructor
  · rw [← List.head?_drop, split]
    rfl
  · rw [← List.tail_drop, split]
    rfl

def descent (top : Nat) : Nat → List (Const × Label) → List Link
  | _, [] => []
  | arm, (constant, _) :: rest => ⟨⟨top - arm⟩, constant, ⟨arm⟩⟩ :: descent top (arm + 1) rest

@[simp] theorem length_descent (top arm : Nat) (cases : List (Const × Label)) :
    (descent top arm cases).length = cases.length := by
  induction cases generalizing arm with
  | nil => rfl
  | cons entry rest ih => rw [descent, List.length_cons, List.length_cons, ih]

theorem getElem?_descent {top arm position : Nat} {cases : List (Const × Label)} :
    (descent top arm cases)[position]? = cases[position]?.map fun entry =>
      ⟨⟨top - (arm + position)⟩, entry.1, ⟨arm + position⟩⟩ := by
  induction cases generalizing arm position with
  | nil => rfl
  | cons entry rest ih =>
      cases position with
      | zero => rfl
      | succ position =>
          rw [descent, List.getElem?_cons_succ, ih, List.getElem?_cons_succ, Nat.add_right_comm,
            Nat.add_assoc]

namespace DecisionGraph

variable {type : Ty} {cases : List (Const × Label)} {default : Label} {constant : Const}
  {label : Label} {position : Nat} {id : NodeId} {layout : Layout}

theorem comparison?_ladder_test (ladderable : Ladderable cases)
    (found : cases[position]? = some (constant, label)) :
    (ladder type cases default).comparison? ⟨2 * cases.length - position⟩ =
      some (.root, ⟨⟨2 * cases.length - position⟩, constant, ⟨position⟩⟩,
        ⟨2 * cases.length - position - 1⟩) := by
  have discrete := ladderable.discrete _ (List.mem_of_getElem? found)
  unfold comparison?
  rw [node?_ladder_test found]
  exact if_pos (Const.isSwitchable_of_isDiscrete discrete)

theorem comparison?_ladder_leaf (low : id.index ≤ cases.length) :
    (ladder type cases default).comparison? id = none := by
  cases compared : (ladder type cases default).comparison? id with
  | none => rfl
  | some comparison =>
      obtain ⟨subject, link, next⟩ := comparison
      obtain ⟨found, _⟩ := node?_of_comparison? compared
      rcases node?_ladder_cases found with ⟨_, _, isLeaf⟩ | ⟨position, _, _, isCase, isId, _⟩
      · contradiction
      · have inside := (List.getElem?_eq_some_iff.mp isCase).1
        rw [isId] at low
        dsimp only at low
        omega

/-- Where nothing is absorbed, a chain is followed to the last comparison. -/
theorem follow_ladder (ladderable : Ladderable cases)
    (free : ∀ id, layout.isAbsorbed id = false) {rest : List (Const × Label)} :
    ∀ {arm fuel : Nat} {constants : List Const}, cases.drop arm = rest → 0 < arm →
      arm ≤ cases.length → rest.length ≤ fuel →
      (∀ constant ∈ constants, ∀ entry ∈ rest, constant.sameValue? entry.1 = some false) →
      Layout.follow (ladder type cases default) (ladder type cases default).predecessors layout
          .root fuel constants ⟨2 * cases.length - arm⟩ =
        ⟨descent (2 * cases.length) arm rest, ⟨cases.length⟩⟩ := by
  induction rest with
  | nil =>
      intro arm fuel constants split _ within _ _
      have atEnd : 2 * cases.length - arm = cases.length := by
        have := List.drop_eq_nil_iff.mp split
        omega
      rw [atEnd]
      cases fuel with
      | zero => rfl
      | succ fuel => rw [Layout.follow, comparison?_ladder_leaf (Nat.le_refl _), descent]
  | cons entry rest ih =>
      intro arm fuel constants split positive within enough apart
      obtain ⟨constant, label⟩ := entry
      obtain ⟨found, splitRest⟩ := found_of_drop split
      have inside := (List.getElem?_eq_some_iff.mp found).1
      have next : 2 * cases.length - arm - 1 = 2 * cases.length - (arm + 1) := by omega
      cases fuel with
      | zero => simp at enough
      | succ fuel =>
          have apartRest : ∀ known ∈ constants ++ [constant], ∀ other ∈ rest,
              known.sameValue? other.1 = some false := by
            intro known member other inRest
            rcases List.mem_append.mp member with before | last
            · exact apart known before other (List.mem_cons_of_mem _ inRest)
            · obtain rfl := List.mem_singleton.mp last
              exact (ladderable.of_drop split).apart other inRest
          rw [Layout.follow, comparison?_ladder_test ladderable found]
          dsimp only
          rw [if_pos ⟨rfl, single_ladder positive inside,
            fun known member => apart known member _ List.mem_cons_self, free _⟩, next,
            ih splitRest (Nat.succ_pos arm) inside (Nat.le_of_succ_le_succ enough) apartRest, descent]

theorem chainFrom?_ladder (type : Ty) (default : Label) (ladderable : Ladderable cases)
    (free : ∀ id, layout.isAbsorbed id = false) {arm : Nat} (inside : arm < cases.length) :
    layout.chainFrom? (ladder type cases default) (ladder type cases default).predecessors
        ⟨2 * cases.length - arm⟩ =
      some ⟨descent (2 * cases.length) arm (cases.drop arm), ⟨cases.length⟩⟩ := by
  obtain ⟨⟨constant, label⟩, found⟩ : ∃ entry, cases[arm]? = some entry :=
    ⟨_, List.getElem?_eq_getElem inside⟩
  have split : cases.drop arm = (constant, label) :: cases.drop (arm + 1) := by
    rw [List.drop_eq_getElem?_toList_append, found]
    rfl
  have next : 2 * cases.length - arm - 1 = 2 * cases.length - (arm + 1) := by omega
  have enough : (cases.drop (arm + 1)).length ≤ (ladder type cases default).size := by
    rw [List.length_drop, size_ladder]
    omega
  have apart : ∀ known ∈ [constant], ∀ other ∈ cases.drop (arm + 1),
      known.sameValue? other.1 = some false := by
    intro known member
    rw [List.mem_singleton.mp member]
    exact (ladderable.of_drop split).apart
  unfold Layout.chainFrom?
  rw [comparison?_ladder_test ladderable found, Option.map_some]
  dsimp only
  rw [next, follow_ladder ladderable free rfl (Nat.succ_pos arm) inside enough apart, split, descent]

theorem chainFrom?_ladder_leaf (low : id.index ≤ cases.length) :
    layout.chainFrom? (ladder type cases default) (ladder type cases default).predecessors id =
      none := by
  unfold Layout.chainFrom?
  rw [comparison?_ladder_leaf low]
  rfl

end DecisionGraph

/-! ## What becomes a table -/

namespace Layout

theorem foldl_absorb_of_settled {graph : DecisionGraph} {predecessors : Array (List NodeId)}
    {minEntries : Nat} {layout : Layout} {order : List NodeId}
    (settled : ∀ id ∈ order, layout.absorb graph predecessors minEntries id = layout) :
    order.foldl (absorb graph predecessors minEntries) layout = layout := by
  induction order with
  | nil => rfl
  | cons id rest ih =>
      rw [List.foldl_cons, settled id List.mem_cons_self]
      exact ih fun other member => settled other (List.mem_cons_of_mem _ member)

end Layout

namespace DecisionGraph

variable {type : Ty} {cases : List (Const × Label)} {default : Label} {minEntries : Nat}
  {id : NodeId}

theorem index_le_of_listed (listed : id ∈ (ladder type cases default).topologicalOrder) :
    id.index ≤ 2 * cases.length := by
  have inside := ((mem_topologicalOrder _ id).mp listed).2
  rw [size_ladder] at inside
  exact Nat.le_of_lt_succ inside

theorem plan_ladder_of_short (ladderable : Ladderable cases)
    (short : cases.length < minEntries) :
    Layout.plan (ladder type cases default) minEntries (ladder type cases default).topologicalOrder =
      .empty (ladder type cases default) := by
  refine Layout.foldl_absorb_of_settled fun id listed => ?_
  have inside := index_le_of_listed listed
  unfold Layout.absorb
  rw [Layout.isAbsorbed_empty, if_neg Bool.false_ne_true]
  rcases Nat.lt_or_ge cases.length id.index with high | low
  · have isTest : id = ⟨2 * cases.length - (2 * cases.length - id.index)⟩ :=
      NodeId.ext (by dsimp only; omega)
    rw [isTest, chainFrom?_ladder type default ladderable (Layout.isAbsorbed_empty _) (by omega)]
    refine if_pos ?_
    rw [length_descent, List.length_drop]
    omega
  · rw [chainFrom?_ladder_leaf low]

def tableLayout (type : Ty) (cases : List (Const × Label)) (default : Label) : Layout :=
  (Layout.empty (ladder type cases default)).take ⟨2 * cases.length⟩
    ⟨descent (2 * cases.length) 0 cases, ⟨cases.length⟩⟩

theorem isAbsorbed_tableLayout : (tableLayout type cases default).isAbsorbed id = true ↔
    cases.length < id.index ∧ id.index < 2 * cases.length := by
  have inTail : (∃ link ∈ (descent (2 * cases.length) 0 cases).tail, link.node = id) ↔
      cases.length < id.index ∧ id.index < 2 * cases.length := by
    simp only [List.mem_iff_getElem?, List.getElem?_tail, getElem?_descent]
    constructor
    · rintro ⟨link, ⟨position, found⟩, rfl⟩
      obtain ⟨entry, isCase, rfl⟩ := Option.map_eq_some_iff.mp found
      have inside := (List.getElem?_eq_some_iff.mp isCase).1
      dsimp only
      omega
    · rintro ⟨high, low⟩
      have inside : 2 * cases.length - id.index - 1 + 1 < cases.length := by omega
      obtain ⟨entry, isCase⟩ : ∃ entry, cases[2 * cases.length - id.index - 1 + 1]? = some entry :=
        ⟨_, List.getElem?_eq_getElem inside⟩
      refine ⟨⟨⟨2 * cases.length - (0 + (2 * cases.length - id.index - 1 + 1))⟩, entry.1,
        ⟨0 + (2 * cases.length - id.index - 1 + 1)⟩⟩, ⟨2 * cases.length - id.index - 1, ?_⟩, ?_⟩
      · rw [isCase]
        rfl
      · refine NodeId.ext ?_
        dsimp only
        omega
  rw [← inTail]
  constructor
  · intro absorbed
    refine (Layout.isAbsorbed_take absorbed).resolve_left ?_
    rw [Layout.isAbsorbed_empty]
    exact Bool.false_ne_true
  · intro taken
    refine Layout.isAbsorbed_take_of ?_ (Or.inr taken)
    have below := (inTail.mp taken).2
    simp only [Layout.empty, Array.size_replicate, size_ladder]
    omega

theorem absorb_top (ladderable : Ladderable cases) (long : minEntries ≤ cases.length)
    (notEmpty : cases ≠ []) :
    Layout.absorb (ladder type cases default) (ladder type cases default).predecessors minEntries
      (.empty (ladder type cases default)) ⟨2 * cases.length⟩ = tableLayout type cases default := by
  have chain := chainFrom?_ladder type default ladderable
    (Layout.isAbsorbed_empty (ladder type cases default)) (List.length_pos_iff.mpr notEmpty)
  rw [Nat.sub_zero, List.drop_zero] at chain
  unfold Layout.absorb
  rw [Layout.isAbsorbed_empty, if_neg Bool.false_ne_true, chain]
  refine if_neg ?_
  rw [length_descent]
  exact Nat.not_lt.mpr long

theorem absorb_tableLayout (inside : id.index < 2 * cases.length) :
    Layout.absorb (ladder type cases default) (ladder type cases default).predecessors minEntries
      (tableLayout type cases default) id = tableLayout type cases default := by
  unfold Layout.absorb
  rcases Nat.lt_or_ge cases.length id.index with high | low
  · exact if_pos (isAbsorbed_tableLayout.mpr ⟨high, inside⟩)
  · rw [chainFrom?_ladder_leaf low]
    exact ite_self _

theorem plan_ladder_of_long (ladderable : Ladderable cases) (long : minEntries ≤ cases.length)
    (notEmpty : cases ≠ []) :
    Layout.plan (ladder type cases default) minEntries (ladder type cases default).topologicalOrder =
      tableLayout type cases default := by
  have rootInside : (ladder type cases default).root.index < (ladder type cases default).size := by
    rw [size_ladder]
    exact Nat.lt_succ_self _
  obtain ⟨back, order⟩ := List.head?_eq_some_iff.mp (head?_topologicalOrder _ rootInside)
  have distinct := nodup_topologicalOrder (ladder type cases default)
  rw [order] at distinct
  unfold Layout.plan
  rw [order, List.foldl_cons]
  refine (congrArg (List.foldl _ · back) (absorb_top ladderable long notEmpty)).trans ?_
  refine Layout.foldl_absorb_of_settled fun id member => absorb_tableLayout ?_
  have inside := index_le_of_listed (order ▸ List.mem_cons_of_mem _ member)
  refine Nat.lt_of_le_of_ne inside fun isTop => ?_
  obtain rfl : id = (ladder type cases default).root := NodeId.ext isTop
  exact (List.nodup_cons.mp distinct).1 member

end DecisionGraph

end MatchCompiler
