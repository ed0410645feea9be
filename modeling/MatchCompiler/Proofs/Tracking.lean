import MatchCompiler.Proofs.Checklist.Passing
import MatchCompiler.Proofs.Residual
import MatchCompiler.Proofs.Walk

/-!
# Walks keep track of residuals

Wherever a walk comes to, its slots are in step with the residual of the node,
or it has come to the leaf of an arm whose variables it has just bound.
-/

set_option autoImplicit false

namespace MatchCompiler

/-- The step that a node carries out for some arm. -/
def Node.step? : Node → Option Step
  | .access made _ => some (.access made)
  | .test asked _ _ => some (.test asked)
  | _ => none

namespace DecisionGraph

/-- Wherever a walk asks a test, the value suits it. -/
def ComparesBooleans (graph : DecisionGraph) (types : TypeOracle) (typing : Typing)
    (oracle : GuardOracle) (input : Value) : Prop :=
  ∀ {id onTrue onFalse : NodeId} {progress : Progress} {asked : Test} {value : Value},
    graph.Visits typing oracle input id progress →
    graph.node? id = some (.test asked onTrue onFalse) →
    progress.slots.get? asked.subject = some value → asked.Suits types graph.table value

variable {graph : DecisionGraph} {problem : MergeProblem} {typing : Typing} {oracle : GuardOracle}
  {input : Value} {id : NodeId} {state : Residual problem.checklists.size} {progress : Progress}

theorem exists_of_waiting (rooted : problem.table.Rooted)
    (closed : ∀ arm, (problem.checklist arm).Closed problem.table)
    (tracks : problem.Tracks typing input state progress) {asked : Test}
    (waiting : ∃ pending ∈ state, pending.todo.head? = some (.test asked)) :
    ∃ value, progress.slots.get? asked.subject = some value := by
  obtain ⟨pending, member, isHead⟩ := waiting
  obtain ⟨front, back, split, done⟩ := (tracks.remain pending member).head isHead
  have ordered := (closed pending.arm).ordered
  obtain ⟨after, reached⟩ := Step.reached_of_done rooted tracks.sound ordered split done
  obtain ⟨value, _, filled⟩ := reached.ready (split ▸ ordered) asked.subject rfl
  exact ⟨value, filled⟩

theorem failed_of_move (rooted : problem.table.Rooted)
    (closed : ∀ arm, (problem.checklist arm).Closed problem.table)
    (tracks : problem.Tracks typing input state progress) {made : Access} {error : WalkError}
    {next : Residual problem.checklists.size} (moved : problem.move state = .access made next)
    (failed : progress.slots.perform problem.table made = .error error) :
    ∃ entry, problem.selection.Picks (problem.entries typing input state) entry ∧
      entry.1.attempt = .error error := by
  obtain ⟨pending, picked, isHead⟩ := MergeProblem.exists_picked_of_move moved
  obtain ⟨front, back, split, done⟩ := (tracks.remain pending picked.mem).head isHead
  exact ⟨_, picked.map _,
    Checklist.run_of_error rooted tracks.sound (closed pending.arm) split done failed⟩

/-- A test that waits asks about a value that suits it, if it does so in the run
of the checklist that waits for it. -/
theorem suits_of_waiting (rooted : problem.table.Rooted)
    (closed : ∀ arm, (problem.checklist arm).Closed problem.table)
    (proper : ∀ arm, Step.Proper problem.types typing problem.table (problem.checklist arm).steps
      (.ofInput problem.table input))
    (tracks : problem.Tracks typing input state progress) {asked : Test} {value : Value}
    (waiting : ∃ pending ∈ state, pending.todo.head? = some (.test asked))
    (filled : progress.slots.get? asked.subject = some value) :
    asked.Suits problem.types problem.table value := by
  obtain ⟨pending, member, isHead⟩ := waiting
  obtain ⟨front, back, split, done⟩ := (tracks.remain pending member).head isHead
  have ordered := (closed pending.arm).ordered
  obtain ⟨after, reached⟩ := Step.reached_of_done rooted tracks.sound ordered split done
  obtain ⟨own, ownFilled, same⟩ := reached.ready (split ▸ ordered) asked.subject rfl
  obtain rfl := Option.some.inj (same.symm.trans filled)
  exact proper pending.arm front asked back after split reached.runs own ownFilled

/-- A walk has just bound the variables of an arm. -/
def Binds (graph : DecisionGraph) (problem : MergeProblem) (typing : Typing)
    (oracle : GuardOracle) (input : Value) (id : NodeId) (progress : Progress) : Prop :=
  ∃ (arm : Fin problem.checklists.size) (binder : NodeId) (before : Progress)
    (guard : Option Guard) (rejected : Option NodeId),
    graph.Visits typing oracle input binder before ∧
    graph.node? binder = some (.bind arm (problem.checklist arm).label
      (problem.checklist arm).bindings guard id rejected) ∧
    graph.node? id = some (.success arm (problem.checklist arm).label) ∧
    progress.slots = before.slots ∧
    before.slots.capture (problem.checklist arm).bindings = .ok progress.bound

/-- A node carries out the moves from a residual on, and the residual and the
progress of a walk are related. -/
def Follows (graph : DecisionGraph) (problem : MergeProblem)
    (related : Residual problem.checklists.size → Progress → Prop) (id : NodeId)
    (progress : Progress) : Prop :=
  ∃ state, problem.Represents graph.nodes id state ∧ related state progress

section Follows

variable {related : Residual problem.checklists.size → Progress → Prop}

theorem Follows.advance
    (rest : ∀ {pending others progress} (calls : List GuardCall),
      related (pending :: others) progress → related others ⟨progress.slots, [], calls⟩)
    (access : ∀ {state progress made slots}, related state progress →
      progress.slots.perform graph.table made = .ok slots →
      related (state.afterAccess made) { progress with slots })
    (test : ∀ {state onTrue onFalse asked value},
      problem.Represents graph.nodes id state → related state progress →
      graph.node? id = some (.test asked onTrue onFalse) →
      progress.slots.get? asked.subject = some value →
      related (state.afterTest problem asked (asked.predicate.holds typing value)) progress)
    (follows : graph.Follows problem related id progress)
    (visited : graph.Visits typing oracle input id progress)
    {node : Node} {target : NodeId} {after : Progress} (found : graph.node? id = some node)
    (advanced : node.advance graph.table typing oracle progress = .proceed target after) :
    graph.Follows problem related target after ∨
      graph.Binds problem typing oracle input target after := by
  obtain ⟨state, represents, holds⟩ := follows
  cases represents with
  | fail stored =>
      obtain rfl := Option.some.inj (found.symm.trans stored)
      cases advanced
  | take stored _ _ =>
      obtain rfl := Option.some.inj (found.symm.trans stored)
      cases advanced
  | bind stored _ leaf =>
      obtain rfl := Option.some.inj (found.symm.trans stored)
      obtain ⟨rfl, bound, captured, rfl⟩ := Advance.bind_eq_proceed advanced
      exact Or.inr ⟨_, id, progress, none, none, visited, stored, leaf, rfl, captured⟩
  | guard stored _ leaf below =>
      obtain rfl := Option.some.inj (found.symm.trans stored)
      obtain ⟨bound, captured, ⟨rfl, _, rfl⟩ | ⟨isRejected, _, rfl⟩⟩ :=
        Advance.guard_eq_proceed advanced
      · exact Or.inr ⟨_, id, progress, _, _, visited, stored, leaf, rfl, captured⟩
      · obtain rfl := Option.some.inj isRejected
        exact Or.inl ⟨_, below, rest _ holds⟩
  | access stored _ below =>
      obtain rfl := Option.some.inj (found.symm.trans stored)
      obtain ⟨rfl, slots, performed, rfl⟩ := Advance.access_eq_proceed advanced
      exact Or.inl ⟨_, below, access holds performed⟩
  | @test _ onTrue onFalse _ asked stored moved belowTrue belowFalse =>
      obtain rfl := Option.some.inj (found.symm.trans stored)
      obtain ⟨value, filled, isTarget, rfl⟩ := Advance.choose_eq_proceed advanced
      have onward := test (.test stored moved belowTrue belowFalse) holds stored filled
      cases came : asked.predicate.holds typing value with
      | true =>
          obtain rfl : target = onTrue := by simpa [came] using isTarget
          exact Or.inl ⟨_, belowTrue, came ▸ onward⟩
      | false =>
          obtain rfl : target = onFalse := by simpa [came] using isTarget
          exact Or.inl ⟨_, belowFalse, came ▸ onward⟩

theorem Binds.not_proceed (binds : graph.Binds problem typing oracle input id progress)
    {node : Node} {target : NodeId} {after : Progress} (found : graph.node? id = some node) :
    node.advance graph.table typing oracle progress ≠ .proceed target after := by
  obtain ⟨_, _, _, _, _, _, _, leaf, _⟩ := binds
  obtain rfl := Option.some.inj (found.symm.trans leaf)
  intro advanced
  cases advanced

theorem follows_or_binds (represents : problem.Represents graph.nodes graph.root problem.start)
    (start : related problem.start (.start graph.table input))
    (rest : ∀ {pending others progress} (calls : List GuardCall),
      related (pending :: others) progress → related others ⟨progress.slots, [], calls⟩)
    (access : ∀ {state progress made slots}, related state progress →
      progress.slots.perform graph.table made = .ok slots →
      related (state.afterAccess made) { progress with slots })
    (test : ∀ {id state progress onTrue onFalse asked value},
      graph.Visits typing oracle input id progress →
      problem.Represents graph.nodes id state → related state progress →
      graph.node? id = some (.test asked onTrue onFalse) →
      progress.slots.get? asked.subject = some value →
      related (state.afterTest problem asked (asked.predicate.holds typing value)) progress)
    (visited : graph.Visits typing oracle input id progress) :
    graph.Follows problem related id progress ∨
      graph.Binds problem typing oracle input id progress := by
  induction visited with
  | root => exact Or.inl ⟨_, represents, start⟩
  | next visited found advanced ih =>
      rcases ih with follows | binds
      · exact follows.advance rest access (test visited) visited found advanced
      · exact absurd advanced (binds.not_proceed found)

end Follows

/-- The slots of a walk are in step with the residual of a node. -/
def InStep (graph : DecisionGraph) (problem : MergeProblem) (typing : Typing) (input : Value)
    (id : NodeId) (progress : Progress) : Prop :=
  graph.Follows problem (problem.Tracks typing input) id progress

theorem inStep_or_binds (sameTable : graph.table = problem.table) (rooted : problem.table.Rooted)
    (sound : problem.types.SoundFor typing)
    (represents : problem.Represents graph.nodes graph.root problem.start)
    (suits : ∀ {id progress onTrue onFalse asked value},
      graph.Visits typing oracle input id progress → graph.InStep problem typing input id progress →
      graph.node? id = some (.test asked onTrue onFalse) →
      progress.slots.get? asked.subject = some value → asked.Suits problem.types problem.table value)
    (visited : graph.Visits typing oracle input id progress) :
    graph.InStep problem typing input id progress ∨
      graph.Binds problem typing oracle input id progress := by
  refine follows_or_binds represents ?_ ?_ ?_ ?_ visited
  · rw [sameTable]
    exact MergeProblem.tracks_start rooted
  · exact fun calls tracks => tracks.rest calls
  · intro state progress made slots tracks performed
    rw [sameTable] at performed
    exact tracks.afterAccess rooted performed
  · intro id state progress onTrue onFalse asked value visited represents tracks found filled
    exact tracks.afterTest sound filled (suits visited ⟨state, represents, tracks⟩ found filled) rfl

theorem waiting_of_represents (represents : problem.Represents graph.nodes id state)
    {node : Node} {step : Step} (found : graph.node? id = some node)
    (carriesOut : node.step? = some step) :
    ∃ pending ∈ state, pending.todo.head? = some step := by
  cases represents with
  | access stored moved _ =>
      obtain rfl := Option.some.inj (found.symm.trans stored)
      obtain rfl := Option.some.inj carriesOut
      exact (MergeProblem.move_eq_access moved).1
  | test stored moved _ _ =>
      obtain rfl := Option.some.inj (found.symm.trans stored)
      obtain rfl := Option.some.inj carriesOut
      exact (MergeProblem.move_eq_test moved).1
  | fail stored | take stored _ _ | bind stored _ _ | guard stored _ _ _ =>
      obtain rfl := Option.some.inj (found.symm.trans stored)
      contradiction

/-- Tests that suit their values in the runs of the checklists do so on a walk. -/
theorem comparesBooleans_of_proper (problem : MergeProblem) (sameTable : graph.table = problem.table)
    (rooted : problem.table.Rooted)
    (closed : ∀ arm, (problem.checklist arm).Closed problem.table)
    (sound : problem.types.SoundFor typing)
    (represents : problem.Represents graph.nodes graph.root problem.start)
    (proper : ∀ arm, Step.Proper problem.types typing problem.table (problem.checklist arm).steps
      (.ofInput problem.table input)) :
    graph.ComparesBooleans problem.types typing oracle input := by
  have suits : ∀ {id progress onTrue onFalse asked value},
      graph.InStep problem typing input id progress →
      graph.node? id = some (.test asked onTrue onFalse) →
      progress.slots.get? asked.subject = some value →
      asked.Suits problem.types problem.table value := by
    rintro id progress onTrue onFalse asked value ⟨state, represents, tracks⟩ found filled
    exact suits_of_waiting rooted closed proper tracks (waiting_of_represents represents found rfl)
      filled
  intro id onTrue onFalse progress asked value visited found filled
  rw [sameTable]
  rcases inStep_or_binds sameTable rooted sound represents (fun _ inStep => suits inStep)
    visited with inStep | ⟨_, _, _, _, _, _, _, leaf, _⟩
  · exact suits inStep found filled
  · cases leaf.symm.trans found

end DecisionGraph

end MatchCompiler
