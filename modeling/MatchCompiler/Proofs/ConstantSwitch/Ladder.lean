import Mathlib
import MatchCompiler.BlockPlan.Lowering
import MatchCompiler.Proofs.DecisionGraph.Predecessors
import MatchCompiler.Proofs.Walk

/-!
# Ladders of comparisons

The graph of a switch over constants: the leaves of all arms, in order, and above
them one comparison for each constant, the first arm's on top. A comparison leads
to the leaf of its arm, or to the next one below; nothing else leads to a
comparison, so all of them make one chain.
-/

set_option autoImplicit false

namespace MatchCompiler

/-- Numbers, characters and strings. -/
def Const.isDiscrete : Const → Bool
  | .int _ | .char _ | .str _ => true
  | _ => false

namespace Const

variable {constant other : Const}

theorem isNull_of_isDiscrete (discrete : constant.isDiscrete = true) : constant.isNull = false := by
  cases constant <;> first | rfl | contradiction

theorem isSwitchable_of_isDiscrete (discrete : constant.isDiscrete = true) :
    constant.isSwitchable = true := by
  cases constant <;> first | rfl | contradiction

theorem sameValue?_of_isDiscrete (discrete : constant.isDiscrete = true) :
    constant.sameValue? other = some (constant == other) := by
  cases constant <;> first | contradiction | cases other <;> rfl

end Const

/-- Constants that a ladder can compare with, each of them once. -/
structure Ladderable (cases : List (Const × Label)) : Prop where
  discrete : ∀ entry ∈ cases, entry.1.isDiscrete = true
  distinct : (cases.map (·.1)).Nodup

namespace Ladderable

variable {entry : Const × Label} {cases rest : List (Const × Label)} {arm : Nat}

theorem of_drop (ladderable : Ladderable cases) (split : cases.drop arm = rest) :
    Ladderable rest where
  discrete := fun entry member => ladderable.discrete entry (List.mem_of_mem_drop (split ▸ member))
  distinct := split ▸ ladderable.distinct.sublist ((List.drop_sublist arm cases).map _)

theorem tail (ladderable : Ladderable (entry :: rest)) : Ladderable rest :=
  ladderable.of_drop (List.drop_one (l := entry :: rest))

theorem ne (ladderable : Ladderable (entry :: rest)) {other : Const × Label}
    (member : other ∈ rest) : entry.1 ≠ other.1 := by
  intro same
  exact (List.nodup_cons.mp ladderable.distinct).1 (List.mem_map.mpr ⟨other, member, same.symm⟩)

theorem apart (ladderable : Ladderable (entry :: rest)) :
    ∀ other ∈ rest, entry.1.sameValue? other.1 = some false := by
  intro other member
  rw [Const.sameValue?_of_isDiscrete (ladderable.discrete entry List.mem_cons_self),
    beq_false_of_ne (ladderable.ne member)]

end Ladderable

/-- The nodes of a ladder: the leaf of the first arm, the ladder of the others, and
the comparison of the first arm. -/
def rungs (default : Label) : Nat → List (Const × Label) → List Node
  | arm, [] => [.success arm default]
  | arm, (constant, label) :: rest =>
      .success arm label :: rungs default (arm + 1) rest ++
        [.test ⟨.root, .equals constant⟩ ⟨arm⟩ ⟨arm + 1 + 2 * rest.length⟩]

section Rungs

variable {default : Label} {cases : List (Const × Label)} {constant : Const} {label : Label}

@[simp] theorem length_rungs (default : Label) (arm : Nat) (cases : List (Const × Label)) :
    (rungs default arm cases).length = 2 * cases.length + 1 := by
  induction cases generalizing arm with
  | nil => rfl
  | cons entry rest ih =>
      simp only [rungs, List.length_append, List.length_cons, ih, List.length_nil]
      omega

theorem getElem?_rungs_succ {entry : Const × Label} {rest : List (Const × Label)} {arm index : Nat}
    (inside : index ≤ 2 * rest.length) :
    (rungs default arm (entry :: rest))[index + 1]? = (rungs default (arm + 1) rest)[index]? := by
  rw [rungs, List.cons_append, List.getElem?_cons_succ, List.getElem?_append_left]
  rw [length_rungs]
  omega

theorem getElem?_rungs_top {rest : List (Const × Label)} {arm : Nat} :
    (rungs default arm ((constant, label) :: rest))[2 * (rest.length + 1)]? =
      some (.test ⟨.root, .equals constant⟩ ⟨arm⟩ ⟨arm + 1 + 2 * rest.length⟩) := by
  have isLast : 2 * (rest.length + 1) = (rungs default (arm + 1) rest).length + 1 := by
    rw [length_rungs]
    omega
  rw [rungs, isLast, List.cons_append, List.getElem?_cons_succ, List.getElem?_concat_length]

theorem getElem?_rungs_leaf {arm position : Nat} (found : cases[position]? = some (constant, label)) :
    (rungs default arm cases)[position]? = some (.success (arm + position) label) := by
  induction cases generalizing arm position with
  | nil => contradiction
  | cons entry rest ih =>
      cases position with
      | zero =>
          obtain rfl := Option.some.inj found
          rfl
      | succ position =>
          rw [List.getElem?_cons_succ] at found
          have inside := (List.getElem?_eq_some_iff.mp found).1
          rw [getElem?_rungs_succ (by omega), ih found, Nat.add_right_comm, Nat.add_assoc]

theorem getElem?_rungs_default (arm : Nat) :
    (rungs default arm cases)[cases.length]? = some (.success (arm + cases.length) default) := by
  induction cases generalizing arm with
  | nil => rfl
  | cons entry rest ih =>
      rw [List.length_cons, getElem?_rungs_succ (by omega), ih, Nat.add_right_comm, Nat.add_assoc]

theorem getElem?_rungs_test {arm position : Nat} (found : cases[position]? = some (constant, label)) :
    (rungs default arm cases)[2 * cases.length - position]? =
      some (.test ⟨.root, .equals constant⟩ ⟨arm + position⟩
        ⟨arm + 2 * cases.length - position - 1⟩) := by
  induction cases generalizing arm position with
  | nil => contradiction
  | cons entry rest ih =>
      cases position with
      | zero =>
          obtain rfl := Option.some.inj found
          rw [List.length_cons, Nat.sub_zero, getElem?_rungs_top]
          congr 3
          omega
      | succ position =>
          rw [List.getElem?_cons_succ] at found
          have inside := (List.getElem?_eq_some_iff.mp found).1
          have place : 2 * (entry :: rest).length - (position + 1) =
              2 * rest.length - position + 1 := by
            rw [List.length_cons]
            omega
          rw [place, getElem?_rungs_succ (by omega), ih found, List.length_cons]
          congr 3 <;> omega

/-- A ladder has leaves at the bottom and comparisons above them. -/
theorem rungs_cases {arm index : Nat} {node : Node}
    (found : (rungs default arm cases)[index]? = some node) :
    (index ≤ cases.length ∧ ∃ label, node = .success (arm + index) label) ∨
      ∃ position constant label, cases[position]? = some (constant, label) ∧
        index = 2 * cases.length - position := by
  have inside := (List.getElem?_eq_some_iff.mp found).1
  rw [length_rungs] at inside
  rcases Nat.lt_trichotomy index cases.length with low | same | high
  · rw [getElem?_rungs_leaf (List.getElem?_eq_getElem low)] at found
    exact Or.inl ⟨Nat.le_of_lt low, _, (Option.some.inj found).symm⟩
  · rw [same, getElem?_rungs_default] at found
    exact Or.inl ⟨Nat.le_of_eq same, default, by rw [same]; exact (Option.some.inj found).symm⟩
  · have inCases : 2 * cases.length - index < cases.length := by omega
    exact Or.inr ⟨2 * cases.length - index, _, _, List.getElem?_eq_getElem inCases, by omega⟩

end Rungs

namespace DecisionGraph

/-- The graph of a switch over constants. -/
def ladder (type : Ty) (cases : List (Const × Label)) (default : Label) : DecisionGraph where
  nodes := (rungs default 0 cases).toArray
  root := ⟨2 * cases.length⟩
  table := .ofInput type
  armCount := cases.length + 1

variable {type : Ty} {cases : List (Const × Label)} {default : Label} {constant : Const}
  {label : Label} {position : Nat} {id target : NodeId} {node : Node}

@[simp] theorem size_ladder : (ladder type cases default).size = 2 * cases.length + 1 :=
  length_rungs default 0 cases

theorem node?_ladder_leaf (found : cases[position]? = some (constant, label)) :
    (ladder type cases default).node? ⟨position⟩ = some (.success position label) := by
  have stored : (rungs default 0 cases)[position]? = some (.success (0 + position) label) :=
    getElem?_rungs_leaf found
  simpa [node?, ladder] using stored

theorem node?_ladder_default :
    (ladder type cases default).node? ⟨cases.length⟩ = some (.success cases.length default) := by
  have stored : (rungs default 0 cases)[cases.length]? = some (.success (0 + cases.length) default) :=
    getElem?_rungs_default 0
  simpa [node?, ladder] using stored

theorem node?_ladder_test (found : cases[position]? = some (constant, label)) :
    (ladder type cases default).node? ⟨2 * cases.length - position⟩ =
      some (.test ⟨.root, .equals constant⟩ ⟨position⟩ ⟨2 * cases.length - position - 1⟩) := by
  have stored : (rungs default 0 cases)[2 * cases.length - position]? =
      some (.test ⟨.root, .equals constant⟩ ⟨0 + position⟩
        ⟨0 + 2 * cases.length - position - 1⟩) := getElem?_rungs_test found
  simpa [node?, ladder] using stored

theorem node?_ladder_cases (found : (ladder type cases default).node? id = some node) :
    (id.index ≤ cases.length ∧ ∃ label, node = .success id.index label) ∨
      ∃ position constant label, cases[position]? = some (constant, label) ∧
        id = ⟨2 * cases.length - position⟩ ∧
        node = .test ⟨.root, .equals constant⟩ ⟨position⟩ ⟨2 * cases.length - position - 1⟩ := by
  have stored : (rungs default 0 cases)[id.index]? = some node := by
    simpa [node?, ladder] using found
  rcases rungs_cases stored with ⟨low, label, isLeaf⟩ | ⟨position, constant, label, isCase, isIndex⟩
  · exact Or.inl ⟨low, label, by rwa [Nat.zero_add] at isLeaf⟩
  · obtain rfl : id = ⟨2 * cases.length - position⟩ := NodeId.ext isIndex
    exact Or.inr ⟨position, constant, label, isCase, rfl,
      Option.some.inj (found.symm.trans (node?_ladder_test isCase))⟩

theorem edge_ladder_iff : (ladder type cases default).Edge id target ↔
    ∃ position, position < cases.length ∧ id = ⟨2 * cases.length - position⟩ ∧
      (target = ⟨position⟩ ∨ target = ⟨2 * cases.length - position - 1⟩) := by
  constructor
  · intro edge
    obtain ⟨node, found, member⟩ := exists_node_of_edge edge
    rcases node?_ladder_cases found with ⟨_, _, rfl⟩ | ⟨position, _, _, isCase, isId, rfl⟩
    · exact absurd member List.not_mem_nil
    · exact ⟨position, (List.getElem?_eq_some_iff.mp isCase).1, isId,
        by simpa [Node.successors] using member⟩
  · rintro ⟨position, inside, rfl, leads⟩
    refine edge_of_node (node?_ladder_test (List.getElem?_eq_getElem inside)) ?_
    simpa [Node.successors] using leads

theorem single_ladder (below : 0 < position) (inside : position < cases.length) :
    (ladder type cases default).predecessors[2 * cases.length - position]?.map List.length =
      some 1 := by
  have inGraph : 2 * cases.length - position < (ladder type cases default).size := by
    rw [size_ladder]
    omega
  have fromAbove : (ladder type cases default).Edge ⟨2 * cases.length - (position - 1)⟩
      ⟨2 * cases.length - position⟩ := by
    refine edge_ladder_iff.mpr ⟨position - 1, by omega, rfl, Or.inr (NodeId.ext ?_)⟩
    dsimp only
    omega
  refine single_of_source inGraph fromAbove fun other edge => ?_
  obtain ⟨above, aboveInside, rfl, leads⟩ := edge_ladder_iff.mp edge
  simp only [NodeId.mk.injEq] at leads ⊢
  omega

end DecisionGraph

end MatchCompiler
