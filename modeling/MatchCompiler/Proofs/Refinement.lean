import Mathlib
import MatchCompiler.Proofs.Tracking

/-!
# Walks refine checklists

A walk through the graph of checklists takes the first checklist that passes by
itself and whose guard accepts. Merging only changes when an access that fails
shows, and not even that where the first arm always goes first.
-/

set_option autoImplicit false

namespace MatchCompiler

namespace DecisionGraph

variable {graph : DecisionGraph} {problem : MergeProblem} {typing : Typing} {oracle : GuardOracle}
  {input : Value} {id : NodeId} {state : Residual problem.checklists.size}

/-- From a node that carries out the moves of a residual, a walk ends as trying
out the arms of the residual may end. -/
theorem merges_of_represents (problem : MergeProblem)
    {state : Residual problem.checklists.size} (sameTable : graph.table = problem.table)
    (rooted : problem.table.Rooted)
    (closed : ∀ arm, (problem.checklist arm).Closed problem.table)
    (sound : problem.types.SoundFor typing)
    (booleans : graph.ComparesBooleans problem.types typing oracle input)
    (represents : problem.Represents graph.nodes id state) :
    ∀ {progress : Progress}, graph.Visits typing oracle input id progress →
      problem.Tracks typing input state progress →
      ∃ run, graph.Ends typing.isInstance oracle id progress run ∧
        Candidate.Merges problem.selection oracle progress.calls
          (problem.entries typing input state) run := by
  induction represents with
  | fail found =>
      intro progress _ _
      exact ⟨_, .halt found rfl, .ended .exhausted⟩
  | @take id arm others found unguarded unbound =>
      intro progress _ tracks
      obtain ⟨bound, passes, captured⟩ := Checklist.run_of_done rooted tracks.sound (closed arm)
        (tracks.remain _ List.mem_cons_self).all_done
      rw [unbound] at captured
      obtain rfl : bound = progress.bound := by
        rw [tracks.unbound]
        exact (Except.ok.inj captured).symm
      exact ⟨_, .halt found rfl, .ended (.taken passes unguarded)⟩
  | @bind id success arm others found unguarded leaf =>
      intro progress _ tracks
      obtain ⟨bound, passes, captured⟩ := Checklist.run_of_done rooted tracks.sound (closed arm)
        (tracks.remain _ List.mem_cons_self).all_done
      exact ⟨_, .proceedTyped found (Node.advance_bind captured) (.halt leaf rfl),
        .ended (.taken passes unguarded)⟩
  | @guard id success rejected arm others guard found guarded leaf below ih =>
      intro progress visited tracks
      obtain ⟨bound, passes, captured⟩ := Checklist.run_of_done rooted tracks.sound (closed arm)
        (tracks.remain _ List.mem_cons_self).all_done
      cases answered : oracle progress.calls ⟨guard, bound⟩ with
      | error error =>
          exact ⟨_, .haltTyped found (Node.advance_guardFailed captured answered),
            .ended (.guardFailed passes guarded answered)⟩
      | ok accepts =>
          cases accepts with
          | true =>
              exact ⟨_, .proceedTyped found (Node.advance_accepted captured answered) (.halt leaf rfl),
                .ended (.accepted passes guarded answered)⟩
          | false =>
              obtain ⟨run, ends, merges⟩ := ih
                (visited.next found (Node.advance_rejected captured answered)) (tracks.rest _)
              exact ⟨run, .proceedTyped found (Node.advance_rejected captured answered) ends,
                .rejected passes guarded answered merges⟩
  | @access id next state made found moved below ih =>
      intro progress visited tracks
      cases performed : progress.slots.perform problem.table made with
      | error error =>
          obtain ⟨entry, picked, attempt⟩ := failed_of_move rooted closed tracks moved performed
          rw [← sameTable] at performed
          exact ⟨_, .haltTyped found (Node.advance_accessFailed performed),
            .ended (.failed picked attempt)⟩
      | ok slots =>
          have onward := tracks.afterAccess rooted performed
          rw [← sameTable] at performed
          obtain ⟨run, ends, merges⟩ :=
            ih (visited.next found (Node.advance_access performed)) onward
          rw [MergeProblem.entries_afterAccess] at merges
          exact ⟨run, .proceedTyped found (Node.advance_access performed) ends, merges⟩
  | @test id onTrue onFalse state asked found moved belowTrue belowFalse ihTrue ihFalse =>
      intro progress visited tracks
      obtain ⟨value, filled⟩ :=
        exists_of_waiting rooted closed tracks (MergeProblem.move_eq_test moved).1
      have suits := sameTable ▸ booleans visited found filled
      have advanced : Node.advance graph.table typing oracle progress
          (.test asked onTrue onFalse) =
          .proceed (if asked.predicate.holds typing value then onTrue else onFalse) progress :=
        Node.advance_test filled
      cases came : asked.predicate.holds typing value with
      | true =>
          rw [came, if_pos rfl] at advanced
          obtain ⟨run, ends, merges⟩ := ihTrue (visited.next found advanced)
            (tracks.afterTest sound filled suits came)
          exact ⟨run, .proceedTyped found advanced ends,
            merges.thicken (tracks.thinned_afterTest rooted sound filled suits came)⟩
      | false =>
          rw [came, if_neg Bool.false_ne_true] at advanced
          obtain ⟨run, ends, merges⟩ := ihFalse (visited.next found advanced)
            (tracks.afterTest sound filled suits came)
          exact ⟨run, .proceedTyped found advanced ends,
            merges.thicken (tracks.thinned_afterTest rooted sound filled suits came)⟩

variable {types : TypeOracle} {options : Options} {table : AccessTable}
  {checklists : List Checklist}

/-- The walk of a graph of checklists, with guards that may remember all earlier
calls. -/
theorem walk_merges (rooted : table.Rooted)
    (closed : ∀ checklist ∈ checklists, checklist.Closed table) (sound : types.SoundFor typing)
    (built : ofChecklists types options table checklists = .ok graph)
    (booleans : graph.ComparesBooleans types typing oracle input) :
    Candidate.Merges options.selection oracle []
      (checklists.map (Checklist.candidate typing table input)).zipIdx
      (graph.walk typing oracle input) := by
  obtain ⟨_, sameTable, _, descending, unfolds⟩ := ofChecklists_eq_ok built
  obtain ⟨run, ends, merges⟩ := merges_of_represents ⟨types, options.selection, table,
      checklists.toArray⟩ sameTable rooted (fun arm => closed _ (by simp [MergeProblem.checklist]))
    sound booleans (MergeProblem.represents_of_unfolds _ unfolds) .root
    (by rw [sameTable]; exact MergeProblem.tracks_start rooted)
  rw [walk_eq_walkBy, ends.walkBy_eq (acyclic_of_descending descending)]
  rw [MergeProblem.entries_start] at merges
  exact merges

/-- With guards that look at their call alone, a walk takes the first checklist
that passes by itself and whose guard accepts. Where every checklist can be
carried out, the walk is the run of the checklists one after the other. -/
theorem walk_refines_checklists
    {answer : Guard → List (Symbol × Value) → Except WalkError Bool} (rooted : table.Rooted)
    (closed : ∀ checklist ∈ checklists, checklist.Closed table) (sound : types.SoundFor typing)
    (built : ofChecklists types options table checklists = .ok graph)
    (booleans : graph.ComparesBooleans types typing (.ofFunction answer) input) :
    Candidate.Refines answer (checklists.map (Checklist.candidate typing table input))
        (graph.walk typing (.ofFunction answer) input) ∧
      ((∀ checklist ∈ checklists, ∀ error, checklist.run typing table input ≠ .error error) →
        graph.walk typing (.ofFunction answer) input =
          Checklist.runInOrder typing (.ofFunction answer) table input checklists) := by
  have merges := walk_merges rooted closed sound built booleans
  refine ⟨merges.refines, fun tried => merges.eq_firstMatch ?_⟩
  intro candidate member error
  obtain ⟨checklist, inList, rfl⟩ := List.mem_map.mp member
  exact tried checklist inList error

/-- A member that two checklists read, and compare with different numbers. -/
def memberTable : AccessTable :=
  ⟨[⟨⟨0⟩, none, 0⟩, ⟨⟨0⟩, some ⟨0⟩, 0⟩], [⟨.root, .field ⟨1⟩⟩]⟩

def memberChecklists : List Checklist :=
  [⟨0, [.test ⟨.root, .nonNull⟩, .access ⟨0⟩, .test ⟨⟨1⟩, .equals (.int 1)⟩], [⟨⟨2⟩, ⟨1⟩⟩],
      some ⟨0⟩, ⟨0⟩⟩,
    ⟨1, [.test ⟨.root, .nonNull⟩, .access ⟨0⟩, .test ⟨⟨1⟩, .equals (.int 2)⟩], [], none, ⟨1⟩⟩]

def memberGraph : DecisionGraph where
  nodes := #[.success 0 ⟨0⟩, .failure,
    .bind 0 ⟨0⟩ [⟨⟨2⟩, ⟨1⟩⟩] (some ⟨0⟩) ⟨0⟩ (some ⟨1⟩), .success 1 ⟨1⟩,
    .test ⟨⟨1⟩, .equals (.int 2)⟩ ⟨3⟩ ⟨1⟩, .test ⟨⟨1⟩, .equals (.int 1)⟩ ⟨2⟩ ⟨4⟩,
    .access ⟨0⟩ ⟨5⟩, .test ⟨.root, .nonNull⟩ ⟨6⟩ ⟨1⟩]
  root := ⟨7⟩
  table := memberTable
  armCount := 2

theorem closed_memberChecklists : ∀ checklist ∈ memberChecklists, checklist.Closed memberTable := by
  have known : memberTable.access? ⟨0⟩ = some ⟨.root, .field ⟨1⟩⟩ := rfl
  have filled : memberTable.outputsOf ⟨0⟩ = [⟨1⟩] := rfl
  intro checklist member
  simp only [memberChecklists, List.mem_cons, List.not_mem_nil, or_false] at member
  rcases member with rfl | rfl
  · constructor <;> simp [Step.Supplied, Step.operand?, Step.Provides, known, filled]
  · constructor <;> simp [Step.Supplied, Step.operand?, Step.Provides, known, filled]

theorem walk_refines_memberChecklists :
    Candidate.Refines (fun _ _ => .ok false)
      (memberChecklists.map (Checklist.candidate ⟨fun _ => none, fun _ _ => false⟩ memberTable
        (.object ⟨0⟩ [(⟨1⟩, .int 1)] [] [])))
      (memberGraph.walk ⟨fun _ => none, fun _ _ => false⟩ (.ofFunction fun _ _ => .ok false)
        (.object ⟨0⟩ [(⟨1⟩, .int 1)] [] [])) := by
  have built : ofChecklists ⟨fun _ _ => .tested, fun _ => true⟩ {} memberTable memberChecklists =
      .ok memberGraph := by
    cbv
  refine (walk_refines_checklists ⟨_, rfl, rfl⟩ closed_memberChecklists ⟨?_, ?_⟩ built ?_).1
  · intro source target value always
    contradiction
  · intro source target value never
    contradiction
  · intro id onTrue onFalse progress asked value visited found filled nonNullable
    contradiction

/-! ## Arms in turn -/

/-- With the steps of the first arm in front, nothing is done for an arm before
its turn comes. So a walk is the run of the checklists one after the other as
soon as that run does not fail, even where checklists behind the one that is
taken could not be carried out. -/
theorem walk_eq_runInOrder (rooted : table.Rooted)
    (closed : ∀ checklist ∈ checklists, checklist.Closed table) (sound : types.SoundFor typing)
    (inTurn : options.selection = .firstArm)
    (built : ofChecklists types options table checklists = .ok graph)
    (booleans : graph.ComparesBooleans types typing oracle input) {outcome : Outcome}
    (ended : (Checklist.runInOrder typing oracle table input checklists).result = .ok outcome) :
    graph.walk typing oracle input =
      Checklist.runInOrder typing oracle table input checklists := by
  have merges := walk_merges rooted closed sound built booleans
  rw [inTurn] at merges
  exact merges.eq_firstMatch_of_ok ended

/-- Two checklists about the match input, and two about a member of it. -/
def eagerChecklists : List Checklist :=
  [⟨0, [.test ⟨.root, .nonNull⟩], [⟨⟨2⟩, .root⟩], some ⟨0⟩, ⟨0⟩⟩,
    ⟨1, [.test ⟨.root, .nonNull⟩, .test ⟨.root, .ofType ⟨2⟩⟩], [], none, ⟨1⟩⟩,
    ⟨2, [.access ⟨0⟩, .test ⟨⟨1⟩, .equals (.int 1)⟩], [], none, ⟨2⟩⟩,
    ⟨3, [.access ⟨0⟩, .test ⟨⟨1⟩, .equals (.int 2)⟩], [⟨⟨2⟩, ⟨1⟩⟩], none, ⟨3⟩⟩]

/-- Objects are instances of their own class alone. -/
def exactTyping : Typing := ⟨PrimitiveTypes.typeOf {}, fun actual type => actual == type⟩

theorem closed_eagerChecklists : ∀ checklist ∈ eagerChecklists, checklist.Closed memberTable := by
  have known : memberTable.access? ⟨0⟩ = some ⟨.root, .field ⟨1⟩⟩ := rfl
  have filled : memberTable.outputsOf ⟨0⟩ = [⟨1⟩] := rfl
  intro checklist member
  simp only [eagerChecklists, List.mem_cons, List.not_mem_nil, or_false] at member
  rcases member with rfl | rfl | rfl | rfl <;> constructor <;>
    simp [Step.Supplied, Step.operand?, Step.Provides, known, filled]

/-- A bare value is taken by the second checklist; the ones behind it miss the member. -/
theorem walk_eq_runInOrder_eagerChecklists :
    ∃ graph, ofChecklists ⟨fun _ _ => .tested, fun _ => true⟩ { selection := .firstArm } memberTable
        eagerChecklists = .ok graph ∧
      (graph.walk exactTyping (.ofFunction fun _ _ => .ok false) (.bare ⟨2⟩)).result =
        .ok (.matched 1 ⟨1⟩ []) := by
  have succeeds : (ofChecklists ⟨fun _ _ => .tested, fun _ => true⟩ { selection := .firstArm }
      memberTable eagerChecklists).toOption.isSome = true := by cbv
  have ended : (Checklist.runInOrder exactTyping (.ofFunction fun _ _ => .ok false) memberTable
      (.bare ⟨2⟩) eagerChecklists).result = .ok (.matched 1 ⟨1⟩ []) := by
    rfl
  cases built : ofChecklists ⟨fun _ _ => .tested, fun _ => true⟩ { selection := .firstArm }
      memberTable eagerChecklists with
  | error error => simp [built, Except.toOption] at succeeds
  | ok graph =>
      refine ⟨graph, rfl, ?_⟩
      rw [walk_eq_runInOrder ⟨_, rfl, rfl⟩ closed_eagerChecklists ⟨?_, ?_⟩ rfl built ?_ ended]
      · exact ended
      · intro source target value always
        contradiction
      · intro source target value never
        contradiction
      · intro id onTrue onFalse progress asked value visited found filled nonNullable
        contradiction

-- the step that most checklists wait for comes first otherwise, and that one fails
example : ((ofChecklists ⟨fun _ _ => .tested, fun _ => true⟩ {} memberTable
    eagerChecklists).toOption.map fun graph =>
      (graph.walk exactTyping (.ofFunction fun _ _ => .ok false) (.bare ⟨2⟩)).result) =
    some (.error (.noMember ⟨1⟩)) := by
  cbv

end DecisionGraph

end MatchCompiler
