import Mathlib
import MatchCompiler.Proofs.DecisionGraph.Recursion
import MatchCompiler.Proofs.DecisionGraph.Shape

/-!
# The limit on nodes

Two constructions under different limits do the same until one of them is full.
So there is one graph for all limits that it fits, and no graph for the others.
-/

set_option autoImplicit false

namespace MatchCompiler

/-- What a limit leads to where no limit has a result. -/
def exhausted (limit : Nat) : BuildError :=
  if limit ≤ 2 ^ 32 then .tooComplex limit else .nodeOverflow

/-- One result for all limits that it fits, and the error for those that only the
`held` nodes before it fit; or no result, for want of numbers. -/
def Threshold {count : Nat} (held : Nat)
    (attempt : Nat → Except BuildError (NodeId × Arena count)) : Prop :=
  (∃ result, held ≤ result.2.nodes.size ∧ result.2.nodes.size ≤ 2 ^ 32 ∧ ∀ limit, held ≤ limit →
      attempt limit =
        if result.2.nodes.size ≤ limit then .ok result else .error (.tooComplex limit)) ∨
    ∀ limit, held ≤ limit → attempt limit = .error (exhausted limit)

namespace Threshold

variable {count held : Nat} {attempt other : Nat → Except BuildError (NodeId × Arena count)}

theorem ok (id : NodeId) {arena : Arena count} (few : arena.nodes.size ≤ 2 ^ 32) :
    Threshold arena.nodes.size fun _ => .ok (id, arena) :=
  Or.inl ⟨(id, arena), Nat.le_refl _, few, fun _ fits => (if_pos fits).symm⟩

theorem push (node : Node) {arena : Arena count} (few : arena.nodes.size ≤ 2 ^ 32) :
    Threshold arena.nodes.size fun limit => arena.push limit node := by
  by_cases numbered : arena.nodes.size ≤ 0xffffffff
  · refine Or.inl ⟨(⟨arena.nodes.size⟩, { arena with nodes := arena.nodes.push node }), by simp,
      by rw [Array.size_push]; omega, fun limit _ => ?_⟩
    dsimp only
    rw [Arena.push, if_pos numbered, Array.size_push]
    by_cases full : limit ≤ arena.nodes.size
    · rw [if_pos full, if_neg (by omega)]
    · rw [if_neg full, if_pos (by omega)]
  · refine Or.inr fun limit held => ?_
    dsimp only
    rw [Arena.push, exhausted, if_neg numbered]
    by_cases full : limit ≤ arena.nodes.size
    · rw [if_pos full, if_pos (by omega)]
    · rw [if_neg full, if_neg (by omega)]

theorem leaf (node : Node) {arena : Arena count} (few : arena.nodes.size ≤ 2 ^ 32) :
    Threshold arena.nodes.size fun limit => arena.leaf limit node := by
  unfold Arena.leaf
  cases arena.nodes.findIdx? (· == node) with
  | some index => exact ok ⟨index⟩ few
  | none => exact push node few

theorem bind {next : Nat → NodeId × Arena count → Except BuildError (NodeId × Arena count)}
    (first : Threshold held attempt)
    (behind : ∀ middle, middle.2.nodes.size ≤ 2 ^ 32 →
      Threshold middle.2.nodes.size fun limit => next limit middle) :
    Threshold held fun limit => attempt limit >>= next limit := by
  rcases first with ⟨middle, heldLe, few, attempts⟩ | nothing
  · have refused : ∀ limit, held ≤ limit → ¬ middle.2.nodes.size ≤ limit →
        attempt limit >>= next limit = .error (.tooComplex limit) := by
      intro limit fits exceeds
      rw [attempts limit fits, if_neg exceeds]
      rfl
    have passed : ∀ limit, held ≤ limit → middle.2.nodes.size ≤ limit →
        attempt limit >>= next limit = next limit middle := by
      intro limit fits middleFits
      rw [attempts limit fits, if_pos middleFits]
      rfl
    rcases behind middle few with ⟨result, middleLe, resultFew, goesOn⟩ | nothing
    · refine Or.inl ⟨result, heldLe.trans middleLe, resultFew, fun limit fits => ?_⟩
      by_cases middleFits : middle.2.nodes.size ≤ limit
      · exact (passed limit fits middleFits).trans (goesOn limit middleFits)
      · rw [if_neg fun resultFits => middleFits (middleLe.trans resultFits)]
        exact refused limit fits middleFits
    · refine Or.inr fun limit fits => ?_
      by_cases middleFits : middle.2.nodes.size ≤ limit
      · exact (passed limit fits middleFits).trans (nothing limit middleFits)
      · have small : limit ≤ 2 ^ 32 := by omega
        dsimp only
        rw [refused limit fits middleFits, exhausted, if_pos small]
  · refine Or.inr fun limit fits => ?_
    dsimp only
    rw [nothing limit fits]
    rfl

theorem finish (state : Residual count) (made : NodeId × Arena count)
    (few : made.2.nodes.size ≤ 2 ^ 32) :
    Threshold made.2.nodes.size fun _ => .ok (made.1, made.2.finish state made.1) :=
  Or.inl ⟨(made.1, made.2.finish state made.1), Nat.le_refl _, few, fun _ fits => (if_pos fits).symm⟩

theorem place (state : Residual count) (node : Node) {arena : Arena count}
    (few : arena.nodes.size ≤ 2 ^ 32) :
    Threshold arena.nodes.size fun limit => arena.place limit state node :=
  (push node few).bind fun middle middleFew => finish state middle middleFew

end Threshold

namespace MergeProblem

variable {problem : MergeProblem}

/-- A build does the same under all limits, up to where one is reached. -/
theorem build_threshold (state : Residual problem.checklists.size) :
    ∀ arena : Arena problem.checklists.size, arena.nodes.size ≤ 2 ^ 32 →
      Threshold arena.nodes.size fun limit => problem.build limit state arena := by
  induction weightEq : state.weight using Nat.strongRecOn generalizing state with
  | _ weight ih =>
  intro arena few
  subst weightEq
  simp only [build_eq_buildBy problem _ state, buildBy]
  cases arena.finished[state]? with
  | some id => exact .ok id few
  | none =>
      cases moved : problem.move state with
      | fail =>
          apply (Threshold.leaf .failure few).bind
          exact fun middle middleFew => .finish state middle middleFew
      | accept arm others =>
          apply (Threshold.leaf (.success arm _) few).bind
          intro middle middleFew
          cases guarded : (problem.checklist arm).guard with
          | none =>
              dsimp only
              split
              · exact .ok middle.1 middleFew
              · exact .place state _ middleFew
          | some condition =>
              apply (ih _ (problem.weight_of_move_accept _ _ _ moved) others rfl _ middleFew).bind
              exact fun last lastFew => .place state _ lastFew
      | access made next =>
          apply (ih _ (problem.weight_of_move_access _ _ _ moved) next rfl _ few).bind
          exact fun middle middleFew => .place state _ middleFew
      | test asked onTrue onFalse =>
          obtain ⟨trueLess, falseLess⟩ := problem.weight_of_move_test _ _ _ _ moved
          apply (ih _ trueLess onTrue rfl _ few).bind
          intro middle middleFew
          apply (ih _ falseLess onFalse rfl _ middleFew).bind
          exact fun last lastFew => .place state _ lastFew

end MergeProblem

namespace DecisionGraph

/-- The limit on nodes decides whether there is a graph, and nothing else: all
limits that the graph fits lead to it, and all others are exceeded. A graph that
there are not enough numbers for is built under no limit. -/
theorem ofChecklists_threshold (types : TypeOracle) (selection : Selection) (table : AccessTable)
    (checklists : List Checklist)
    (numbered : ∀ (position : Nat) (checklist : Checklist),
      checklists[position]? = some checklist → checklist.index = position) :
    ∃ least, 1 ≤ least ∧
      (least ≤ 2 ^ 32 → ∃ graph : DecisionGraph, graph.size = least ∧
        ∀ options : Options, options.selection = selection →
          (least ≤ options.nodeLimit →
            ofChecklists types options table checklists = .ok graph) ∧
          (options.nodeLimit < least →
            ofChecklists types options table checklists =
              .error (.tooComplex options.nodeLimit))) ∧
      (2 ^ 32 < least → ∀ options : Options, options.selection = selection →
        ofChecklists types options table checklists = .error (exhausted options.nodeLimit)) := by
  have accepted : misnumbered? checklists = none := misnumbered?_eq_none_iff.mpr numbered
  let problem : MergeProblem := ⟨types, selection, table, checklists.toArray⟩
  have outcome : ∀ options : Options, options.selection = selection →
      ofChecklists types options table checklists =
        (problem.build options.nodeLimit problem.start .empty >>= fun made =>
          .ok ⟨made.2.nodes, made.1, table, checklists.length⟩) := by
    rintro options rfl
    unfold ofChecklists
    rw [accepted]
    rfl
  rcases problem.build_threshold problem.start .empty (Nat.zero_le _) with
    ⟨⟨root, arena⟩, _, few, builds⟩ | nothing
  · have attempts : ∀ limit, problem.build limit problem.start .empty =
        if arena.nodes.size ≤ limit then .ok (root, arena) else .error (.tooComplex limit) :=
      fun limit => builds limit (Nat.zero_le _)
    refine ⟨arena.nodes.size, ?_, fun _ => ?_, fun exceeds => absurd few (Nat.not_le.mpr exceeds)⟩
    · have made := attempts arena.nodes.size
      rw [if_pos (Nat.le_refl _)] at made
      have last : root.index + 1 = arena.nodes.size := (MergeProblem.builds_of_build made).last
      omega
    · refine ⟨⟨arena.nodes, root, table, checklists.length⟩, rfl, fun options selected => ⟨?_, ?_⟩⟩
      · intro fits
        rw [outcome options selected, attempts, if_pos fits]
        rfl
      · intro exceeds
        rw [outcome options selected, attempts, if_neg (Nat.not_le.mpr exceeds)]
        rfl
  · refine ⟨2 ^ 32 + 1, by omega, fun small => absurd small (by omega), fun _ options selected => ?_⟩
    have failed : problem.build options.nodeLimit problem.start .empty =
        .error (exhausted options.nodeLimit) := nothing options.nodeLimit (Nat.zero_le _)
    rw [outcome options selected, failed]
    rfl

/-- Four nodes are what it takes. -/
theorem threshold_guardedGraph :
    (∀ limit, 4 ≤ limit →
      ofChecklists ⟨fun _ _ => .never, fun _ => true⟩ { nodeLimit := limit }
        (.ofInput Hierarchy.object) guardedChecklists = .ok guardedGraph) ∧
    ∀ limit, limit < 4 →
      ofChecklists ⟨fun _ _ => .never, fun _ => true⟩ { nodeLimit := limit }
        (.ofInput Hierarchy.object) guardedChecklists = .error (.tooComplex limit) := by
  have numbered : ∀ (position : Nat) (checklist : Checklist),
      guardedChecklists[position]? = some checklist → checklist.index = position :=
    misnumbered?_eq_none_iff.mp (by decide)
  obtain ⟨least, _, within, beyond⟩ := ofChecklists_threshold ⟨fun _ _ => .never, fun _ => true⟩
    ({} : Options).selection (.ofInput Hierarchy.object) guardedChecklists numbered
  have built : ofChecklists ⟨fun _ _ => .never, fun _ => true⟩ {}
      (.ofInput Hierarchy.object) guardedChecklists = .ok guardedGraph := by
    cbv
  have few : least ≤ 2 ^ 32 := by
    by_contra exceeds
    exact absurd (built.symm.trans (beyond (Nat.not_le.mp exceeds) {} rfl)) (by simp)
  obtain ⟨graph, isLeast, decides⟩ := within few
  have isGraph : graph = guardedGraph := by
    rcases Nat.lt_or_ge ({} : Options).nodeLimit least with exceeds | fits
    · exact absurd (built.symm.trans ((decides {} rfl).2 exceeds)) (by simp)
    · exact Except.ok.inj (((decides {} rfl).1 fits).symm.trans built)
  have isFour : least = 4 := by rw [← isLeast, isGraph]; rfl
  rw [isGraph, isFour] at decides
  exact ⟨fun limit fits => (decides { nodeLimit := limit } rfl).1 fits,
    fun limit exceeds => (decides { nodeLimit := limit } rfl).2 exceeds⟩

end DecisionGraph

end MatchCompiler
