import Mathlib
import MatchCompiler.Proofs.Compile.Outcome
import MatchCompiler.Proofs.ConstantSwitch.Ladder
import MatchCompiler.Proofs.DecisionGraph.Recursion
import MatchCompiler.Proofs.Hierarchy
import MatchCompiler.Proofs.Pattern.Repetition

/-!
# Building a ladder

The arms of a switch over constants wait for one comparison each, and no two for
the same, so whatever the selection they are asked in their order. A comparison
that came out false tells nothing about the others.
-/

set_option autoImplicit false

namespace MatchCompiler

/-! ## The steps that are taken -/

theorem Selection.choose_of_nodup (selection : Selection) {first : Step} {heads : List Step}
    (member : first ∈ heads) (distinct : heads.Nodup) : selection.choose first heads = first := by
  cases selection with
  | firstArm => rfl
  | mostShared =>
      have stays : ∀ steps : List Step, steps.foldl (fun best step =>
          if heads.count best < heads.count step then step else best) first = first := by
        intro steps
        induction steps with
        | nil => rfl
        | cons step rest ih =>
            have once := List.count_eq_one_of_mem distinct member
            have atMostOnce := List.nodup_iff_count_le_one.mp distinct step
            rw [List.foldl_cons, if_neg (by omega)]
            exact ih
      exact stays heads

theorem Predicate.implied_of_failed (types : TypeOracle) (nonNullable : Bool) {known asked : Const}
    (discrete : known.isDiscrete = true) (differ : known ≠ asked) :
    implied types nonNullable (.equals known) false (.equals asked) = none := by
  have untold : nullness (.equals known) false = none := by
    cases known <;> first | rfl | contradiction
  have unequal : known.sameValue? asked ≠ some true := by
    rw [Const.sameValue?_of_isDiscrete discrete, beq_false_of_ne differ]
    exact fun same => Bool.false_ne_true (Option.some.inj same)
  unfold implied
  rw [if_neg fun same => differ (equals.inj same), untold]
  cases known with
  | int _ | char _ | str _ => simp [related, unequal]
  | _ => contradiction

theorem Pending.resolve_of_untold {count : Nat} {answer : Step → Option Bool}
    {pending : Pending count} (untold : ∀ step ∈ pending.todo, answer step = none) :
    pending.resolve answer = some pending := by
  have unrefused : pending.todo.any (answer · == some false) = false :=
    List.any_eq_false.mpr fun step member => by simp [untold step member]
  have whole : pending.todo.filter (answer · != some true) = pending.todo :=
    List.filter_eq_self.mpr fun step member => by simp [untold step member]
  unfold resolve
  rw [unrefused, whole]
  rfl

/-- The checklists of arms that compare the input with constants, the last of
which takes everything. -/
def Checklist.ofConstants (default : Label) : Nat → List (Const × Label) → List Checklist
  | arm, [] => [⟨arm, [], [], none, default⟩]
  | arm, (constant, label) :: rest =>
      ⟨arm, [.test ⟨.root, .equals constant⟩], [], none, label⟩ :: ofConstants default (arm + 1) rest

namespace MergeProblem

structure Awaits (problem : MergeProblem) (checklist : Checklist)
    (pending : Pending problem.checklists.size) : Prop where
  isChecklist : problem.checklist pending.arm = checklist
  isArm : pending.arm.val = checklist.index
  todo : pending.todo = checklist.steps

variable {problem : MergeProblem} {limit : Nat} {default label : Label}
  {rest : List (Const × Label)} {arm : Nat} {constant : Const}
  {state others : Residual problem.checklists.size} {arena : Arena problem.checklists.size}

theorem awaits_start
    (numbered : ∀ (position : Nat) (checklist : Checklist),
      problem.checklists.toList[position]? = some checklist → checklist.index = position) :
    List.Forall₂ problem.Awaits problem.checklists.toList problem.start := by
  refine List.forall₂_iff_get.mpr ⟨by simp [start], fun position inside inside' => ?_⟩
  have isIndex := numbered position _ (List.getElem?_eq_getElem inside)
  simp only [start, List.get_eq_getElem, List.getElem_map, List.getElem_finRange]
  refine ⟨?_, ?_, ?_⟩
  · simp [checklist]
  · simpa using isIndex.symm
  · simp [checklist]

theorem heads_of_awaits
    (awaits : List.Forall₂ problem.Awaits (Checklist.ofConstants default arm rest) state) :
    state.heads = (rest.map (·.1)).map fun constant => .test ⟨.root, .equals constant⟩ := by
  induction rest generalizing arm state with
  | nil =>
      cases awaits with
      | cons waits behind =>
          cases behind
          simp [Residual.heads, waits.todo]
  | cons entry rest ih =>
      cases awaits with
      | cons waits behind =>
          have tail := ih behind
          unfold Residual.heads at tail ⊢
          rw [List.filterMap_cons, waits.todo, tail]
          rfl

theorem afterTest_of_awaits (discrete : constant.isDiscrete = true)
    (differ : ∀ entry ∈ rest, constant ≠ entry.1)
    (awaits : List.Forall₂ problem.Awaits (Checklist.ofConstants default arm rest) state) :
    state.afterTest problem ⟨.root, .equals constant⟩ false = state := by
  induction rest generalizing arm state with
  | nil =>
      cases awaits with
      | cons waits behind =>
          cases behind
          unfold Residual.afterTest
          rw [List.filterMap_cons, Pending.resolve_of_untold (by simp [waits.todo])]
          rfl
  | cons entry rest ih =>
      cases awaits with
      | cons waits behind =>
          have tail := ih (fun other member => differ other (List.mem_cons_of_mem _ member)) behind
          unfold Residual.afterTest at tail ⊢
          rw [List.filterMap_cons, Pending.resolve_of_untold, tail]
          intro step member
          rw [waits.todo] at member
          obtain rfl := List.mem_singleton.mp member
          simp only [Residual.settled, if_true]
          exact Predicate.implied_of_failed _ _ discrete (differ entry List.mem_cons_self)

/-- The first arm's comparison is made. If it holds, that arm is taken; else the
others are as they were. -/
theorem move_of_awaits (ladderable : Ladderable ((constant, label) :: rest))
    (awaits : List.Forall₂ problem.Awaits
      (Checklist.ofConstants default arm ((constant, label) :: rest)) state) :
    ∃ taken steps remaining others,
      problem.checklist taken = ⟨arm, steps, [], none, label⟩ ∧ taken.val = arm ∧
      List.Forall₂ problem.Awaits (Checklist.ofConstants default (arm + 1) rest) others ∧
      problem.move state =
        .test ⟨.root, .equals constant⟩ (⟨taken, []⟩ :: remaining) others := by
  have heads := heads_of_awaits awaits
  cases awaits with
  | @cons _ pending _ others waits behind =>
      obtain ⟨taken, todo⟩ := pending
      obtain ⟨isChecklist, isArm, rfl⟩ := waits
      have distinct : (Residual.heads (⟨taken, [.test ⟨.root, .equals constant⟩]⟩ :: others)).Nodup := by
        rw [heads]
        refine ladderable.distinct.map fun one other same => ?_
        exact Predicate.equals.inj (Test.mk.inj (Step.test.inj same)).2
      have chosen : problem.selection.choose (.test ⟨.root, .equals constant⟩)
          (Residual.heads (⟨taken, [.test ⟨.root, .equals constant⟩]⟩ :: others)) =
            .test ⟨.root, .equals constant⟩ :=
        problem.selection.choose_of_nodup List.mem_cons_self distinct
      have onTrue : Residual.afterTest problem ⟨.root, .equals constant⟩ true
          (⟨taken, [.test ⟨.root, .equals constant⟩]⟩ :: others) =
            ⟨taken, []⟩ :: Residual.afterTest problem ⟨.root, .equals constant⟩ true others := by
        simp [Residual.afterTest, Pending.resolve, Residual.settled_self]
      have onFalse : Residual.afterTest problem ⟨.root, .equals constant⟩ false
          (⟨taken, [.test ⟨.root, .equals constant⟩]⟩ :: others) = others := by
        have untouched := afterTest_of_awaits (ladderable.discrete _ List.mem_cons_self)
          (fun _ member => ladderable.ne member) behind
        simpa [Residual.afterTest, Pending.resolve, Residual.settled_self] using untouched
      refine ⟨taken, _, Residual.afterTest problem ⟨.root, .equals constant⟩ true others, others,
        isChecklist, isArm, behind, ?_⟩
      simp only [move, chosen, onTrue, onFalse]

end MergeProblem

/-! ## The arena -/

namespace Arena

variable {count limit arm : Nat} {arena : Arena count}

/-- An arena with the leaves of the first arms, and no residual finished. -/
structure HoldsLeaves (arm : Nat) (arena : Arena count) : Prop where
  unfinished : ∀ state : Residual count, arena.finished[state]? = none
  size : arena.nodes.size = arm
  earlier : ∀ node ∈ arena.nodes, ∃ before label, node = .success before label ∧ before < arm

namespace HoldsLeaves

theorem empty : HoldsLeaves 0 (.empty : Arena count) where
  unfinished := fun _ => Std.HashMap.getElem?_empty
  size := rfl
  earlier := fun _ member => absurd member (Array.not_mem_empty _)

theorem push (holds : arena.HoldsLeaves arm) (label : Label) :
    HoldsLeaves (arm + 1) { arena with nodes := arena.nodes.push (.success arm label) } where
  unfinished := holds.unfinished
  size := by rw [Array.size_push, holds.size]
  earlier := by
    intro node member
    rcases Array.mem_push.mp member with before | rfl
    · obtain ⟨earlier, label, isLeaf, less⟩ := holds.earlier node before
      exact ⟨earlier, label, isLeaf, Nat.lt_succ_of_lt less⟩
    · exact ⟨arm, label, rfl, Nat.lt_succ_self arm⟩

theorem leaf_eq (holds : arena.HoldsLeaves arm) (fits : arm < limit) (few : arm < 2 ^ 32)
    (label : Label) :
    arena.leaf limit (.success arm label) =
      .ok (⟨arm⟩, { arena with nodes := arena.nodes.push (.success arm label) }) := by
  have missing : arena.nodes.findIdx? (· == Node.success arm label) = none := by
    refine Array.findIdx?_eq_none_iff.mpr fun node member => beq_eq_false_iff_ne.mpr ?_
    obtain ⟨before, _, rfl, less⟩ := holds.earlier node member
    exact fun same => Nat.ne_of_lt less (Node.success.inj same).1
  unfold leaf
  rw [missing]
  dsimp only
  rw [push_eq (by rw [holds.size]; exact fits) (by rw [holds.size]; omega), holds.size]

end HoldsLeaves

end Arena

/-! ## The build -/

namespace MergeProblem

variable {problem : MergeProblem} {limit : Nat} {default label : Label}
  {rest : List (Const × Label)} {arm : Nat} {constant : Const}
  {state others : Residual problem.checklists.size} {arena : Arena problem.checklists.size}

theorem build_of_idle {taken : Fin problem.checklists.size}
    {steps : List Step} (isChecklist : problem.checklist taken = ⟨arm, steps, [], none, label⟩)
    (isArm : taken.val = arm) (holds : arena.HoldsLeaves arm) :
    problem.build limit (⟨taken, []⟩ :: others) arena = arena.leaf limit (.success arm label) := by
  rw [build_eq_buildBy, buildBy, holds.unfinished]
  simp only [move, isChecklist, isArm]
  cases arena.leaf limit (.success arm label) <;> rfl

/-- The arms that are left make the rungs that are left, with their leaves in front
and their comparisons behind. -/
theorem build_ladder (problem : MergeProblem) (limit : Nat) :
    ∀ {arm : Nat} {state : Residual problem.checklists.size}
      {arena : Arena problem.checklists.size}, Ladderable rest →
      List.Forall₂ problem.Awaits (Checklist.ofConstants default arm rest) state →
      arena.HoldsLeaves arm → arm + 2 * rest.length < limit → arm + 2 * rest.length < 2 ^ 32 →
      ∃ after, problem.build limit state arena = .ok (⟨arm + 2 * rest.length⟩, after) ∧
        after.nodes = arena.nodes ++ (rungs default arm rest).toArray := by
  induction rest with
  | nil =>
      intro arm state arena _ awaits holds fits few
      cases awaits with
      | @cons _ pending _ _ waits behind =>
          cases behind
          obtain ⟨taken, todo⟩ := pending
          obtain ⟨isChecklist, isArm, rfl⟩ := waits
          rw [build_of_idle isChecklist isArm holds, holds.leaf_eq fits few]
          exact ⟨_, rfl, Array.push_eq_append⟩
  | cons entry rest ih =>
      intro arm state arena ladderable awaits holds fits few
      obtain ⟨constant, label⟩ := entry
      rw [List.length_cons] at fits few ⊢
      obtain ⟨taken, _, remaining, others, isChecklist, isArm, behind, moved⟩ :=
        move_of_awaits ladderable awaits
      obtain ⟨middle, built, isMiddle⟩ :=
        ih ladderable.tail behind (holds.push label) (by omega) (by omega)
      have isSize : middle.nodes.size = arm + 2 * (rest.length + 1) := by
        rw [isMiddle, Array.size_append, Array.size_push, holds.size, List.size_toArray,
          length_rungs]
        omega
      -- Nothing is finished before the last arm is reached, so no residual is met again.
      rw [build_eq_buildBy, buildBy, holds.unfinished, moved]
      dsimp only
      rw [build_of_idle isChecklist isArm holds, holds.leaf_eq (by omega) (by omega), ok_bind]
      dsimp only
      rw [built, ok_bind]
      dsimp only
      rw [Arena.place, Arena.push_eq (by omega) (by omega), isSize, ok_bind]
      refine ⟨_, rfl, ?_⟩
      simp [Arena.finish, isMiddle, rungs]

end MergeProblem

/-! ## From the arms to the graph -/

/-- A switch over constants of its input type, with a last arm for all else. -/
def Switch.ofConstants (type : Ty) (cases : List (Const × Label)) (default : Label) : Switch where
  input := type
  arms := cases.map (fun (constant, label) => ⟨.constant type constant type, none, label⟩) ++
    [⟨.discard type, none, default⟩]

section Arms

variable {type : Ty} {cases : List (Const × Label)} {default : Label} {arm : Nat}
  {constant : Const} {sharing : Sharing}

@[simp] theorem Checklist.length_ofConstants :
    (ofConstants default arm cases).length = cases.length + 1 := by
  induction cases generalizing arm with
  | nil => rfl
  | cons entry rest ih => rw [ofConstants, List.length_cons, ih, List.length_cons]

theorem Checklist.index_ofConstants {position : Nat} {checklist : Checklist}
    (found : (ofConstants default arm cases)[position]? = some checklist) :
    checklist.index = arm + position := by
  induction cases generalizing arm position with
  | nil =>
      obtain ⟨inside, rfl⟩ := List.getElem?_eq_some_iff.mp found
      obtain rfl : position = 0 := Nat.lt_one_iff.mp inside
      rfl
  | cons entry rest ih =>
      cases position with
      | zero =>
          obtain rfl := Option.some.inj found
          rfl
      | succ position =>
          rw [ofConstants, List.getElem?_cons_succ] at found
          rw [ih found, Nat.add_right_comm, Nat.add_assoc]

theorem Arm.checklist_constant (hierarchy : Hierarchy) (type : Ty) (label : Label) (arm : Nat)
    (discrete : constant.isDiscrete = true)
    (fits : sharing = .perArm → arm ≤ 0xffffffff) :
    Arm.checklist hierarchy.oracle sharing arm ⟨.constant type constant type, none, label⟩
        (.ofInput type) =
      .ok (⟨arm, [.test ⟨.root, .equals constant⟩], [], none, label⟩, .ofInput type) := by
  obtain ⟨owner, owned⟩ := Sharing.exists_owner fits
  have sameType : (AccessTable.ofInput type).typeOf .root = type := rfl
  have always : hierarchy.oracle.classify type type = .always := hierarchy.classify_self type
  have converts : Pattern.Converts hierarchy.oracle false type (.ofInput type) .root [] .root := by
    unfold Pattern.Converts
    rw [sameType, always]
    exact ⟨rfl, rfl⟩
  have lays : Pattern.Lays hierarchy.oracle owner (.ofInput type) (.constant type constant type) .root
      ⟨[.test ⟨.root, .equals constant⟩], []⟩ := by
    simp only [Pattern.Lays, Const.isNull_of_isDiscrete discrete]
    exact ⟨[], .root, converts, rfl⟩
  exact Arm.checklist_eq_ok.mpr ⟨rfl, owner, _, owned, Pattern.flatten_of_lays _ owner
    (AccessTable.distinct_ofInput type) _ (by simp only [Pattern.Countable]) lays, rfl⟩

theorem Arm.checklist_discard (types : TypeOracle) (type : Ty) (default : Label) (arm : Nat)
    (fits : sharing = .perArm → arm ≤ 0xffffffff) :
    Arm.checklist types sharing arm ⟨.discard type, none, default⟩ (.ofInput type) =
      .ok (⟨arm, [], [], none, default⟩, .ofInput type) := by
  obtain ⟨owner, owned⟩ := Sharing.exists_owner fits
  have lays : Pattern.Lays types owner (.ofInput type) (.discard type) .root .empty := by
    simp only [Pattern.Lays]
  exact Arm.checklist_eq_ok.mpr ⟨rfl, owner, _, owned, Pattern.flatten_of_lays types owner
    (AccessTable.distinct_ofInput type) _ (by simp only [Pattern.Countable]) lays, rfl⟩

theorem checklists_ofConstants (hierarchy : Hierarchy)
    (discrete : ∀ entry ∈ cases, entry.1.isDiscrete = true)
    (fits : sharing = .perArm → arm + cases.length ≤ 0xffffffff) :
    checklists hierarchy.oracle sharing arm (Switch.ofConstants type cases default).arms
        (.ofInput type) =
      .ok (Checklist.ofConstants default arm cases, .ofInput type) := by
  induction cases generalizing arm with
  | nil =>
      have last := Arm.checklist_discard hierarchy.oracle type default arm fits
      simp only [Switch.ofConstants, List.map_nil, List.nil_append, checklists, last, ok_bind]
      rfl
  | cons entry rest ih =>
      obtain ⟨constant, label⟩ := entry
      rw [List.length_cons] at fits
      have few : sharing = .perArm → arm + 1 + rest.length ≤ 0xffffffff := by
        rw [Nat.add_right_comm]
        exact fits
      have first := Arm.checklist_constant hierarchy type label arm
        (discrete _ List.mem_cons_self) fun isPerArm => (Nat.le_add_right _ _).trans (fits isPerArm)
      have behind := ih (fun other member => discrete other (List.mem_cons_of_mem _ member)) few
      simp only [Switch.ofConstants, List.map_cons, List.cons_append, checklists, first, ok_bind]
      simp only [Switch.ofConstants] at behind
      rw [behind]
      rfl

theorem DecisionGraph.ofArms_ofConstants (hierarchy : Hierarchy) (options : Options) (type : Ty)
    (default : Label) (ladderable : Ladderable cases) (roomy : 2 * cases.length + 1 ≤ options.nodeLimit)
    (few : 2 * cases.length + 1 ≤ 2 ^ 32) :
    ofArms hierarchy.oracle options type (Switch.ofConstants type cases default).arms =
      .ok (ladder type cases default) := by
  have numbered : ∀ (position : Nat) (checklist : Checklist),
      (Checklist.ofConstants default 0 cases)[position]? = some checklist →
        checklist.index = position := by
    intro position checklist found
    rw [Checklist.index_ofConstants found, Nat.zero_add]
  let problem : MergeProblem := ⟨hierarchy.oracle, options.selection, .ofInput type,
    (Checklist.ofConstants default 0 cases).toArray⟩
  obtain ⟨after, built, nodes⟩ := MergeProblem.build_ladder problem options.nodeLimit ladderable
    (MergeProblem.awaits_start numbered) .empty (by omega : 0 + 2 * cases.length < options.nodeLimit)
    (by omega)
  unfold ofArms
  rw [checklists_ofConstants hierarchy ladderable.discrete (fun _ => by omega), ok_bind]
  dsimp only
  unfold ofChecklists
  have sameNodes : after.nodes = (rungs default 0 cases).toArray := by
    rw [nodes]
    exact Array.empty_append
  have isGraph : (⟨after.nodes, ⟨0 + 2 * cases.length⟩, .ofInput type,
      (Checklist.ofConstants default 0 cases).length⟩ : DecisionGraph) =
        ladder type cases default := by
    rw [sameNodes, Nat.zero_add, Checklist.length_ofConstants]
    rfl
  rw [misnumbered?_eq_none_iff.mpr numbered, ← isGraph]
  dsimp only
  rw [built]
  rfl

end Arms

end MatchCompiler
