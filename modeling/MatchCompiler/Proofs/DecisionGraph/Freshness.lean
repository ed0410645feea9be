import Mathlib
import MatchCompiler.Proofs.Refinement
import MatchCompiler.Proofs.Residual.Course

/-!
# No path does anything twice

The builder keeps no record of what is known. What a path knows is in what it
leaves: nothing that one of its turns has given an answer to. So no step comes
twice on a path, and a test is asked only where nothing that came out before
settles it, even on paths that no run takes.
-/

set_option autoImplicit false

namespace MatchCompiler

namespace DecisionGraph

variable {graph : DecisionGraph} {problem : MergeProblem} {id target : NodeId} {node : Node}
  {turn : Turn} {turns : List Turn} {step : Step}

/-- The steps that are carried out along a path, at its last node too. -/
def stepsTo (graph : DecisionGraph) (turns : List Turn) (id : NodeId) : List Step :=
  turns.filterMap Turn.step? ++ ((graph.node? id).bind Node.step?).toList

theorem filterMap_step?_snoc (found : graph.node? id = some node)
    (taken : (turn, target) ∈ node.turns) :
    (turns ++ [turn]).filterMap Turn.step? = graph.stepsTo turns id := by
  unfold stepsTo
  rw [List.filterMap_append, found, Option.bind_some, Node.step?_of_turn taken]
  cases carriesOut : turn.step? <;> simp [carriesOut]

theorem mem_stepsTo (member : step ∈ graph.stepsTo turns id) :
    step ∈ turns.filterMap Turn.step? ∨
      ∃ node, graph.node? id = some node ∧ node.step? = some step := by
  rcases List.mem_append.mp member with before | last
  · exact Or.inl before
  · exact Or.inr (Option.bind_eq_some_iff.mp (Option.mem_toList.mp last))

theorem Path.nodup_stepsTo (represents : problem.Represents graph.nodes graph.root problem.start)
    (path : graph.Path graph.root turns id) (before : (turns.filterMap Turn.step?).Nodup) :
    (graph.stepsTo turns id).Nodup := by
  refine List.nodup_append.mpr ⟨before, ?_, ?_⟩
  · cases (graph.node? id).bind Node.step? <;> simp
  · rintro earlier inTurns step isLast rfl
    obtain ⟨turn, member, carriesOut⟩ := List.mem_filterMap.mp inTurns
    obtain ⟨node, found, asksFor⟩ := Option.bind_eq_some_iff.mp (Option.mem_toList.mp isLast)
    have answered : (turn.settles problem earlier).isSome = true :=
      Turn.settles_of_step? carriesOut
    rw [path.settles represents found asksFor turn member] at answered
    contradiction

theorem Path.nodup_steps (represents : problem.Represents graph.nodes graph.root problem.start)
    (path : graph.Path graph.root turns id) : (turns.filterMap Turn.step?).Nodup := by
  induction path with
  | nil => exact List.nodup_nil
  | snoc path found taken ih =>
      rw [filterMap_step?_snoc found taken]
      exact path.nodup_stepsTo represents ih

theorem Path.settles_of_later (represents : problem.Represents graph.nodes graph.root problem.start)
    (path : graph.Path graph.root turns id) {front back : List Turn}
    (split : turns = front ++ turn :: back) (later : step ∈ graph.stepsTo back id) :
    turn.settles problem step = none := by
  induction path generalizing back with
  | nil => simp at split
  | snoc path found taken ih =>
      -- the step is that of the last node, or the path comes by it before its last turn
      rcases mem_stepsTo later with between | ⟨node, isLast, asksFor⟩
      · rcases List.eq_nil_or_concat back with rfl | ⟨shorter, last, rfl⟩
        · contradiction
        · rw [List.concat_eq_append] at split between
          rw [← List.cons_append, ← List.append_assoc] at split
          obtain ⟨splitBefore, sameLast⟩ := List.append_inj' split rfl
          obtain rfl := List.singleton_inj.mp sameLast
          rw [filterMap_step?_snoc found taken] at between
          exact ih splitBefore between
      · exact (path.snoc found taken).settles represents isLast asksFor turn (by simp [split])

variable {types : TypeOracle} {options : Options} {table : AccessTable}
  {checklists : List Checklist}

/-- On a path from the root of a built graph, be it one that no run takes, no
access is made twice and no test asked twice. What a test asks is not implied by
the outcome of any test of the same value before it. -/
theorem ofChecklists_fresh (built : ofChecklists types options table checklists = .ok graph)
    (path : graph.Path graph.root turns id) :
    (graph.stepsTo turns id).Nodup ∧
      ∀ front known outcome back asked, turns = front ++ .test known outcome :: back →
        .test asked ∈ graph.stepsTo back id → asked.subject = known.subject →
          known.predicate.implied types (!types.canBeNull (table.typeOf known.subject)) outcome
            asked.predicate = none := by
  obtain ⟨_, _, _, _, unfolds⟩ := ofChecklists_eq_ok built
  have represents := MergeProblem.represents_of_unfolds _ unfolds
  refine ⟨path.nodup_stepsTo represents (path.nodup_steps represents), ?_⟩
  intro front known outcome back asked split later sameSubject
  have unsettled := path.settles_of_later represents split later
  rw [Turn.settles, Residual.settled, if_pos sameSubject] at unsettled
  exact unsettled

/-- The number that a member turned out not to be tells nothing about the next one. -/
theorem fresh_memberGraph :
    (memberGraph.stepsTo [.test ⟨.root, .nonNull⟩ true, .access ⟨0⟩,
        .test ⟨⟨1⟩, .equals (.int 1)⟩ false] ⟨4⟩).Nodup ∧
      (Predicate.equals (.int 1)).implied ⟨fun _ _ => .tested, fun _ => true⟩ false false
        (.equals (.int 2)) = none := by
  have built : ofChecklists ⟨fun _ _ => .tested, fun _ => true⟩ {} memberTable memberChecklists =
      .ok memberGraph := by
    cbv
  have path : memberGraph.Path memberGraph.root [.test ⟨.root, .nonNull⟩ true, .access ⟨0⟩,
      .test ⟨⟨1⟩, .equals (.int 1)⟩ false] ⟨4⟩ :=
    .snoc (.snoc (.snoc .nil rfl List.mem_cons_self) rfl List.mem_cons_self) rfl
      (List.mem_cons_of_mem _ List.mem_cons_self)
  have fresh := ofChecklists_fresh built path
  exact ⟨fresh.1, fresh.2 [.test ⟨.root, .nonNull⟩ true, .access ⟨0⟩] ⟨⟨1⟩, .equals (.int 1)⟩ false []
    ⟨⟨1⟩, .equals (.int 2)⟩ rfl List.mem_cons_self rfl⟩

end DecisionGraph

end MatchCompiler
