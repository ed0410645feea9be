import MatchCompiler.DecisionGraph.Construction
import MatchCompiler.Proofs.Success

/-!
# How a graph is built

`Builds` tells what is done to the arena for the node of a residual, one
constructor for each way to come by a node. A build either does that or runs
into the node limit; nothing else stops it.
-/

set_option autoImplicit false

namespace MatchCompiler

namespace MergeProblem

variable {problem : MergeProblem}

/-- The node of a residual, and what the arena is before and after it is built. -/
inductive Builds (problem : MergeProblem) (limit : Nat) :
    Residual problem.checklists.size → Arena problem.checklists.size → NodeId →
      Arena problem.checklists.size → Prop
  | known {state : Residual problem.checklists.size} {arena : Arena problem.checklists.size}
      {id : NodeId} (found : arena.finished[state]? = some id) :
      Builds problem limit state arena id arena
  | fail {state : Residual problem.checklists.size} {arena after : Arena problem.checklists.size}
      {id : NodeId} (moved : problem.move state = .fail)
      (leafed : arena.leaf limit .failure = .ok (id, after)) :
      Builds problem limit state arena id (after.finish state id)
  | take {state others : Residual problem.checklists.size} {arm : Fin problem.checklists.size}
      {arena after : Arena problem.checklists.size} {id : NodeId}
      (moved : problem.move state = .accept arm others)
      (unguarded : (problem.checklist arm).guard = none)
      (unbound : (problem.checklist arm).bindings.isEmpty = true)
      (leafed : arena.leaf limit (.success arm (problem.checklist arm).label) = .ok (id, after)) :
      Builds problem limit state arena id after
  | bind {state others : Residual problem.checklists.size} {arm : Fin problem.checklists.size}
      {arena middle after : Arena problem.checklists.size} {success id : NodeId}
      (moved : problem.move state = .accept arm others)
      (unguarded : (problem.checklist arm).guard = none)
      (bound : ¬(problem.checklist arm).bindings.isEmpty = true)
      (leafed : arena.leaf limit (.success arm (problem.checklist arm).label) =
        .ok (success, middle))
      (pushed : middle.push limit (.bind arm (problem.checklist arm).label
        (problem.checklist arm).bindings none success none) = .ok (id, after)) :
      Builds problem limit state arena id (after.finish state id)
  | guard {state others : Residual problem.checklists.size} {arm : Fin problem.checklists.size}
      {arena middle last after : Arena problem.checklists.size} {success rejected id : NodeId}
      {condition : Guard} (moved : problem.move state = .accept arm others)
      (guarded : (problem.checklist arm).guard = some condition)
      (leafed : arena.leaf limit (.success arm (problem.checklist arm).label) =
        .ok (success, middle))
      (rest : Builds problem limit others middle rejected last)
      (pushed : last.push limit (.bind arm (problem.checklist arm).label
        (problem.checklist arm).bindings (some condition) success (some rejected)) =
          .ok (id, after)) :
      Builds problem limit state arena id (after.finish state id)
  | access {state next : Residual problem.checklists.size} {made : Access}
      {arena middle after : Arena problem.checklists.size} {below id : NodeId}
      (moved : problem.move state = .access made next)
      (rest : Builds problem limit next arena below middle)
      (pushed : middle.push limit (.access made below) = .ok (id, after)) :
      Builds problem limit state arena id (after.finish state id)
  | test {state onTrue onFalse : Residual problem.checklists.size} {asked : Test}
      {arena middle last after : Arena problem.checklists.size} {yes no id : NodeId}
      (moved : problem.move state = .test asked onTrue onFalse)
      (whenTrue : Builds problem limit onTrue arena yes middle)
      (whenFalse : Builds problem limit onFalse middle no last)
      (pushed : last.push limit (.test asked yes no) = .ok (id, after)) :
      Builds problem limit state arena id (after.finish state id)

end MergeProblem

/-- A computation comes to a result of a certain kind, to the limit on nodes, or to
the last number of a node where the limit lies behind it. -/
def EndsWithin {α : Type} (limit : Nat) (kind : α → Prop) (built : Except BuildError α) : Prop :=
  (∃ result, built = .ok result ∧ kind result) ∨ built = .error (.tooComplex limit) ∨
    (0x100000000 < limit ∧ built = .error .nodeOverflow)

namespace EndsWithin

variable {α β : Type} {limit : Nat} {kind : α → Prop} {onward : β → Prop}

theorem ok {result : α} (isKind : kind result) : EndsWithin limit kind (.ok result) :=
  Or.inl ⟨result, rfl, isKind⟩

theorem imp {built : Except BuildError α} {narrower : α → Prop} (ends : EndsWithin limit kind built)
    (implies : ∀ result, built = .ok result → kind result → narrower result) :
    EndsWithin limit narrower built :=
  ends.imp_left fun ⟨result, isResult, isKind⟩ => ⟨result, isResult, implies result isResult isKind⟩

theorem bind {first : Except BuildError α} {next : α → Except BuildError β}
    (ends : EndsWithin limit kind first)
    (behind : ∀ middle, kind middle → EndsWithin limit onward (next middle)) :
    EndsWithin limit onward (first >>= next) := by
  rcases ends with ⟨middle, rfl, isKind⟩ | rfl | ⟨above, rfl⟩
  · exact behind middle isKind
  · exact Or.inr (Or.inl rfl)
  · exact Or.inr (Or.inr ⟨above, rfl⟩)

theorem ok_or_tooComplex {built : Except BuildError α} (ends : EndsWithin limit kind built)
    (small : limit ≤ 0x100000000) :
    (∃ result, built = .ok result ∧ kind result) ∨ built = .error (.tooComplex limit) :=
  ends.imp_right fun failed => failed.resolve_right fun overflow =>
    absurd overflow.1 (Nat.not_lt.mpr small)

end EndsWithin

namespace Arena

variable {count : Nat} {arena : Arena count} {limit : Nat}

theorem push_endsWithin (limit : Nat) (node : Node) (arena : Arena count) :
    EndsWithin limit (fun result => arena.push limit node = .ok result) (arena.push limit node) := by
  unfold push
  split
  · exact Or.inr (Or.inl rfl)
  · rename_i room
    split
    · exact .ok rfl
    · rename_i outside
      exact Or.inr (Or.inr ⟨by omega, rfl⟩)

theorem push_eq {node : Node} (room : arena.nodes.size < limit)
    (numbered : arena.nodes.size ≤ 0xffffffff) :
    arena.push limit node =
      .ok (⟨arena.nodes.size⟩, { arena with nodes := arena.nodes.push node }) := by
  rw [push, if_neg (Nat.not_le.mpr room), if_pos numbered]

theorem leaf_endsWithin (limit : Nat) (node : Node) (arena : Arena count) :
    EndsWithin limit (fun result => arena.leaf limit node = .ok result) (arena.leaf limit node) := by
  unfold leaf
  split
  · exact .ok rfl
  · exact push_endsWithin limit node arena

theorem push_eq_ok {after : Arena count} {node : Node} {id : NodeId}
    (pushed : arena.push limit node = .ok (id, after)) :
    arena.nodes.size < limit ∧ id = ⟨arena.nodes.size⟩ ∧
      after = { arena with nodes := arena.nodes.push node } := by
  unfold push at pushed
  split at pushed
  · contradiction
  · rename_i room
    split at pushed
    · simp only [Except.ok.injEq, Prod.mk.injEq] at pushed
      exact ⟨Nat.not_le.mp room, pushed.1.symm, pushed.2.symm⟩
    · contradiction

theorem leaf_eq_ok {after : Arena count} {node : Node} {id : NodeId}
    (leafed : arena.leaf limit node = .ok (id, after)) :
    (after = arena ∧ arena.nodes[id.index]? = some node) ∨
      ((∀ index : Nat, arena.nodes[index]? ≠ some node) ∧
        arena.push limit node = .ok (id, after)) := by
  unfold leaf at leafed
  split at leafed
  · rename_i index found
    simp only [Except.ok.injEq, Prod.mk.injEq] at leafed
    obtain ⟨rfl, rfl⟩ := leafed
    obtain ⟨inside, isNode, _⟩ := Array.findIdx?_eq_some_iff_getElem.mp found
    refine Or.inl ⟨rfl, ?_⟩
    rw [Array.getElem?_eq_getElem inside, beq_iff_eq.mp isNode]
  · rename_i missing
    refine Or.inr ⟨?_, leafed⟩
    intro index found
    have refused := Array.findIdx?_eq_none_iff.mp missing node (Array.mem_of_getElem? found)
    simp at refused

end Arena

namespace MergeProblem

variable {problem : MergeProblem}

/-- A build comes to the node of its residual, or the arena is full. -/
theorem build_endsWithin (limit : Nat) (state : Residual problem.checklists.size) :
    ∀ arena : Arena problem.checklists.size,
      EndsWithin limit (fun made => problem.Builds limit state arena made.1 made.2)
        (problem.build limit state arena) := by
  induction weightEq : state.weight using Nat.strongRecOn generalizing state with
  | _ weight ih =>
  intro arena
  subst weightEq
  rw [build]
  split
  · rename_i id found
    exact .ok (.known found)
  · dsimp only
    split
    · rename_i moved
      apply (Arena.leaf_endsWithin limit .failure arena).bind
      rintro ⟨id, after⟩ leafed
      exact .ok (.fail moved leafed)
    · rename_i arm others moved
      apply (Arena.leaf_endsWithin limit (.success arm _) arena).bind
      rintro ⟨success, middle⟩ leafed
      dsimp only
      cases guarded : (problem.checklist arm).guard with
      | none =>
          dsimp only
          split
          · rename_i unbound
            exact .ok (.take moved guarded unbound leafed)
          · rename_i bound
            apply (Arena.push_endsWithin limit _ middle).bind
            rintro ⟨id, after⟩ pushed
            exact .ok (.bind moved guarded bound leafed pushed)
      | some condition =>
          apply (ih _ (problem.weight_of_move_accept _ _ _ moved) others rfl middle).bind
          rintro ⟨rejected, last⟩ rest
          apply (Arena.push_endsWithin limit _ last).bind
          rintro ⟨id, after⟩ pushed
          exact .ok (.guard moved guarded leafed rest pushed)
    · rename_i made next moved
      apply (ih _ (problem.weight_of_move_access _ _ _ moved) next rfl arena).bind
      rintro ⟨below, middle⟩ rest
      apply (Arena.push_endsWithin limit (.access made below) middle).bind
      rintro ⟨id, after⟩ pushed
      exact .ok (.access moved rest pushed)
    · rename_i asked onTrue onFalse moved
      obtain ⟨trueLess, falseLess⟩ := problem.weight_of_move_test _ _ _ _ moved
      apply (ih _ trueLess onTrue rfl arena).bind
      rintro ⟨yes, middle⟩ whenTrue
      apply (ih _ falseLess onFalse rfl middle).bind
      rintro ⟨no, last⟩ whenFalse
      apply (Arena.push_endsWithin limit (.test asked yes no) last).bind
      rintro ⟨id, after⟩ pushed
      exact .ok (.test moved whenTrue whenFalse pushed)

theorem builds_of_build {limit : Nat} {state : Residual problem.checklists.size}
    {arena after : Arena problem.checklists.size} {id : NodeId}
    (built : problem.build limit state arena = .ok (id, after)) :
    problem.Builds limit state arena id after := by
  rcases build_endsWithin limit state arena with ⟨_, made, builds⟩ | full | ⟨_, full⟩
  · rw [built] at made
    cases made
    exact builds
  · rw [built] at full
    contradiction
  · rw [built] at full
    contradiction

end MergeProblem

end MatchCompiler
