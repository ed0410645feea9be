import MatchCompiler.Proofs.Compile

/-!
# Compiled switches do not get stuck

A walk of a compiled switch never reads what is not there, whatever the types
say about each other and whatever value it is given. For each arm that is still
alive, the steps that it waits for no more were made, or settled by an outcome
that leaves no doubt about null. Null can only be in the way of an access where
its static type promises that it is not there.
-/

set_option autoImplicit false

namespace MatchCompiler

/-- Failures that are due to the graph, whatever it is applied to. -/
def WalkError.isMalformed : WalkError → Bool
  | .unknownNode _ | .unknownAccess _ | .emptySlot _ | .noLeafWithin _ | .noFallthrough _ => true
  | _ => false

/-- A failure for which a value with null in it is to blame, or a value of
another shape, or a guard. -/
structure WalkError.DueTo (value : Value) (error : WalkError) : Prop where
  wellFormed : error.isMalformed = false
  isNull : ∀ access, error = .nullInput access → value.isNull = true

namespace Access

variable {made : Access} {kind : AccessKind} {value : Value} {error : WalkError}

theorem dueTo_of_elementAt {demand : Demand} {position : Nat} {elements : Option (List Value)}
    (failed : made.elementAt demand position value elements = .error error) :
    error.DueTo value := by
  unfold elementAt at failed
  split at failed
  · cases failed
    exact ⟨rfl, by simp⟩
  · split at failed
    · contradiction
    · cases failed
      exact ⟨rfl, by simp⟩

theorem dueTo_of_outputs (failed : made.outputs kind value = .error error) : error.DueTo value := by
  unfold outputs at failed
  split at failed
  · rename_i isNull
    cases failed
    exact ⟨rfl, fun _ _ => isNull⟩
  · split at failed
    · contradiction
    · split at failed
      · cases failed
        exact ⟨rfl, by simp⟩
      · split at failed
        · contradiction
        · cases failed
          exact ⟨rfl, by simp⟩
    · split at failed
      · contradiction
      · cases failed
        exact ⟨rfl, by simp⟩
    · split at failed
      · contradiction
      · cases failed
        exact ⟨rfl, by simp⟩
    · exact dueTo_of_elementAt failed
    · exact dueTo_of_elementAt failed

end Access

theorem Slots.dueTo_of_perform {table : AccessTable} {slots : Slots Value} {made : Access}
    {entry : AccessEntry} {value : Value} {error : WalkError}
    (known : table.access? made = some entry) (filled : slots.get? entry.input = some value)
    (failed : slots.perform table made = .error error) : error.DueTo value := by
  simp only [perform_eq, known, read_eq_ok.mpr filled, ok_bind] at failed
  rcases bind_eq_error.mp failed with contentsFailed | ⟨_, _, impossible⟩
  · rcases bind_eq_error.mp contentsFailed with outputsFailed | ⟨outputs, _, pickFailed⟩
    · exact Access.dueTo_of_outputs outputsFailed
    · obtain ⟨temp, _, refused⟩ := exists_of_mapM_eq_error pickFailed
      unfold AccessTable.pick at refused
      dsimp only at refused
      split at refused
      · contradiction
      · cases refused
        exact ⟨rfl, by simp⟩
  · contradiction

/-- Null tests are implied by nothing but what shows that null is not there, and
a test that is never true is implied by nothing that is seen. -/
theorem Predicate.holds_of_implied {types : TypeOracle} {typing : Typing} {value : Value}
    {nonNullable outcome : Bool} {known asked : Predicate}
    (basic : asked = .nonNull ∨ asked = .never) (came : known.holds typing value = outcome)
    (settles : implied types nonNullable known outcome asked = some true) :
    asked.holds typing value = true := by
  have unrelated : related types nonNullable known outcome asked = none := by
    rcases basic with rfl | rfl
    all_goals cases known <;> cases outcome <;> rfl
  unfold implied at settles
  split at settles
  · rename_i same
    rw [← same, came]
    exact Option.some.inj settles
  · split at settles
    · rename_i told
      exact holds_of_onNull (isNull_of_nullness came told) settles
    · rename_i told
      rw [unrelated, Option.or_none] at settles
      exact holds_of_onNonNull (isNull_of_nullness came told) settles
    · rw [unrelated] at settles
      contradiction

namespace Step

/-- Steps that nothing can settle wrongly. -/
def Basic : Step → Prop
  | .access _ => True
  | .test asked => asked.predicate = .nonNull ∨ asked.predicate = .never

/-- Done, for what an access can rely on. -/
def Secured (typing : Typing) (table : AccessTable) (slots : Slots Value) (step : Step) : Prop :=
  step.Basic → step.Done typing table slots

end Step

namespace MergeProblem

/-- A match whose slots are in step with a residual as far as an access can tell. -/
structure Secures (problem : MergeProblem) (typing : Typing) (input : Value)
    (state : Residual problem.checklists.size) (progress : Progress) : Prop where
  sound : progress.slots.Sound problem.table input
  left : ∀ pending ∈ state, Step.LeftOf (Step.Secured typing problem.table progress.slots)
    (problem.checklist pending.arm).steps pending.todo

variable {problem : MergeProblem} {typing : Typing} {input : Value}
  {state others : Residual problem.checklists.size} {progress : Progress}

theorem secures_start (rooted : problem.table.Rooted) :
    problem.Secures typing input problem.start (.start problem.table input) where
  sound := Slots.sound_ofInput rooted input
  left := by
    intro pending member
    obtain ⟨arm, _, rfl⟩ := List.mem_map.mp member
    exact .all_of_none _

theorem Secures.rest {pending : Pending problem.checklists.size}
    (secures : problem.Secures typing input (pending :: others) progress) (calls : List GuardCall) :
    problem.Secures typing input others ⟨progress.slots, [], calls⟩ where
  sound := secures.sound
  left := fun other member => secures.left other (List.mem_cons_of_mem _ member)

theorem Secures.afterAccess (rooted : problem.table.Rooted) {made : Access} {slots : Slots Value}
    (secures : problem.Secures typing input state progress)
    (performed : progress.slots.perform problem.table made = .ok slots) :
    problem.Secures typing input (state.afterAccess made) { progress with slots } where
  sound := secures.sound.perform rooted performed
  left := by
    intro pending member
    obtain ⟨before, inState, rfl⟩ := List.mem_map.mp member
    have below := secures.sound.below_of_perform rooted performed
    have left := (secures.left before inState).imp
      fun step secured basic => Step.Done.mono (secured basic) below
    refine left.filter _ fun step _ dropped _ => ?_
    obtain rfl : step = .access made := by simpa using dropped
    exact Step.done_of_perform secures.sound rooted performed

theorem Secures.afterTest {asked : Test} {value : Value}
    (secures : problem.Secures typing input state progress)
    (filled : progress.slots.get? asked.subject = some value) :
    problem.Secures typing input
      (state.afterTest problem asked (asked.predicate.holds typing value)) progress where
  sound := secures.sound
  left := by
    intro pending member
    obtain ⟨before, inState, rfl, _⟩ := Residual.exists_of_mem_afterTest member
    refine (secures.left before inState).filter _ fun step _ dropped basic => ?_
    have settled : Residual.settled problem asked (asked.predicate.holds typing value) step =
        some true := by
      simpa using dropped
    obtain ⟨other, rfl, sameSubject, implied⟩ := settled_eq_some settled
    exact ⟨value, by rw [sameSubject]; exact filled, Predicate.holds_of_implied basic rfl implied⟩

end MergeProblem

namespace Step

variable {types : TypeOracle} {typing : Typing} {table : AccessTable} {input : Value}
  {slots : Slots Value} {front : List Step} {temp : Temp}

theorem isSome_of_provides (sound : slots.Sound table input)
    (secured : ∀ step ∈ front, step.Secured typing table slots)
    (provides : Provides table front temp) : (slots.get? temp).isSome := by
  rcases provides with rfl | ⟨made, member, _, isOutput⟩
  · rw [sound.root]
    rfl
  · exact (secured _ member trivial).2 temp isOutput

theorem notNull_of_vouched (rooted : table.Rooted) (sound : slots.Sound table input)
    (secured : ∀ step ∈ front, step.Secured typing table slots)
    (vouched : Vouched types table front temp) {value : Value}
    (filled : slots.get? temp = some value) :
    types.canBeNull (table.typeOf temp) = false ∨ value.isNull = false := by
  rcases vouched with excluded | tested | ⟨cast, entry, type, member, known, isCast, isOutput⟩
  · exact Or.inl excluded
  · obtain ⟨other, found, holds⟩ := secured _ tested (Or.inl rfl)
    obtain rfl := Option.some.inj (filled.symm.trans found)
    exact Or.inr (by simpa [Predicate.holds] using holds)
  · obtain ⟨⟨after, performed⟩, _⟩ := secured _ member trivial
    obtain ⟨content, _, notNull, yielded⟩ := sound.get?_of_cast rooted performed known isCast isOutput
    have still := sound.below_of_perform rooted performed temp value filled
    obtain rfl := Option.some.inj (yielded.symm.trans still)
    exact Or.inr notNull

end Step

namespace DecisionGraph

variable {graph : DecisionGraph} {problem : MergeProblem} {typing : Typing} {oracle : GuardOracle}
  {input : Value} {id : NodeId} {state : Residual problem.checklists.size} {progress : Progress}

/-- A step that waits has everything behind it that it needs. -/
theorem BuiltFrom.prepared_of_waiting (builtFrom : graph.BuiltFrom problem)
    (secures : problem.Secures typing input state progress) {step : Step}
    (waiting : ∃ pending ∈ state, pending.todo.head? = some step) :
    ∃ front, Step.Prepared problem.types problem.table front step ∧
      ∀ before ∈ front, before.Secured typing problem.table progress.slots := by
  obtain ⟨pending, member, isHead⟩ := waiting
  obtain ⟨front, back, split, secured⟩ := (secures.left pending member).head isHead
  exact ⟨front, (builtFrom.sequenced pending.arm).steps front step back split, secured⟩

theorem BuiltFrom.exists_captured (builtFrom : graph.BuiltFrom problem)
    {arm : Fin problem.checklists.size} {others : Residual problem.checklists.size}
    (secures : problem.Secures typing input (⟨arm, []⟩ :: others) progress) :
    ∃ bound, progress.slots.capture (problem.checklist arm).bindings = .ok bound := by
  have secured := (secures.left _ List.mem_cons_self).all_done
  have ready : ∀ binding ∈ (problem.checklist arm).bindings,
      (progress.slots.get? binding.temp).isSome := by
    intro binding member
    apply Step.isSome_of_provides secures.sound secured
    exact (builtFrom.sequenced arm).bound binding member
  obtain ⟨bound, captured, _⟩ := Slots.capture_eq_of_below (fun _ _ found => found) ready
  exact ⟨bound, captured⟩

/-- An oracle whose failures are its own, and not those of a walk. -/
def FailsByItself (oracle : GuardOracle) : Prop :=
  ∀ calls call error, oracle calls call = .error error →
    error.isMalformed = false ∧ ∀ access, error ≠ .nullInput access

/-- The slots of a walk break what a static type promises about null. -/
def FindsNull (types : TypeOracle) (table : AccessTable) (progress : Progress) : Prop :=
  ∃ temp, progress.slots.get? temp = some .null ∧ types.canBeNull (table.typeOf temp) = false

/-- What can be said of a failure without knowing the value. -/
structure Excused (types : TypeOracle) (table : AccessTable) (progress : Progress)
    (error : WalkError) : Prop where
  wellFormed : error.isMalformed = false
  findsNull : ∀ access, error = .nullInput access → FindsNull types table progress

/-- An access fails for its value only, and for null only where that should not
be there. -/
theorem BuiltFrom.access_excused (builtFrom : graph.BuiltFrom problem)
    (secures : problem.Secures typing input state progress) {made : Access}
    (waiting : ∃ pending ∈ state, pending.todo.head? = some (.access made)) {error : WalkError}
    (failed : progress.slots.perform problem.table made = .error error) :
    Excused problem.types problem.table progress error := by
  obtain ⟨front, prepared, secured⟩ := builtFrom.prepared_of_waiting secures waiting
  obtain ⟨entry, known, vouched⟩ := prepared.vouched made rfl
  have provided := prepared.supplied entry.input (by simp [Step.operand?, known])
  obtain ⟨value, filled⟩ :=
    Option.isSome_iff_exists.mp (Step.isSome_of_provides secures.sound secured provided)
  have due := Slots.dueTo_of_perform known filled failed
  refine ⟨due.wellFormed, fun access isNullInput => ?_⟩
  have isNull := due.isNull access isNullInput
  rcases vouched with vouched | ⟨_, impossible⟩
  · refine ⟨entry.input, ?_, ?_⟩
    · rw [filled]
      cases value with
      | null => rfl
      | _ => contradiction
    · rcases Step.notNull_of_vouched builtFrom.lawful.rooted secures.sound secured vouched filled with
        excluded | notNull
      · exact excluded
      · rw [isNull] at notNull
        contradiction
  · obtain ⟨_, _, holds⟩ := secured _ impossible (Or.inr rfl)
    contradiction

theorem BuiltFrom.halt_excused (builtFrom : graph.BuiltFrom problem)
    (ownFailures : FailsByItself oracle)
    (follows : graph.Follows problem (problem.Secures typing input) id progress) {node : Node}
    {run : Run} (found : graph.node? id = some node)
    (halted : node.advance graph.table typing oracle progress = .halt run) {error : WalkError}
    (failed : run.result = .error error) :
    Excused problem.types problem.table progress error := by
  obtain ⟨state, represents, secures⟩ := follows
  cases represents with
  | fail stored =>
      obtain rfl := Option.some.inj (found.symm.trans stored)
      cases halted
      contradiction
  | take stored _ _ =>
      obtain rfl := Option.some.inj (found.symm.trans stored)
      cases halted
      contradiction
  | bind stored _ _ =>
      obtain rfl := Option.some.inj (found.symm.trans stored)
      obtain ⟨other, uncaptured, _⟩ := Advance.bind_eq_halt halted
      obtain ⟨bound, captured⟩ := builtFrom.exists_captured secures
      cases uncaptured.symm.trans captured
  | guard stored _ _ _ =>
      obtain rfl := Option.some.inj (found.symm.trans stored)
      rcases Advance.guard_eq_halt halted with
        ⟨other, uncaptured, _⟩ | ⟨call, other, answered, isResult⟩ | ⟨isNone, _⟩
      · obtain ⟨bound, captured⟩ := builtFrom.exists_captured secures
        cases uncaptured.symm.trans captured
      · obtain rfl := Except.error.inj (isResult.symm.trans failed)
        obtain ⟨wellFormed, notNullInput⟩ := ownFailures _ _ _ answered
        exact ⟨wellFormed, fun access same => absurd same (notNullInput access)⟩
      · contradiction
  | access stored moved _ =>
      obtain rfl := Option.some.inj (found.symm.trans stored)
      obtain ⟨other, performFailed, rfl⟩ := Advance.access_eq_halt halted
      obtain rfl := Except.error.inj failed
      rw [builtFrom.sameTable] at performFailed
      exact builtFrom.access_excused secures (MergeProblem.move_eq_access moved).1 performFailed
  | @test _ _ _ _ asked stored moved _ _ =>
      obtain rfl := Option.some.inj (found.symm.trans stored)
      obtain ⟨empty, _⟩ := Advance.choose_eq_halt halted
      obtain ⟨front, prepared, secured⟩ :=
        builtFrom.prepared_of_waiting secures (MergeProblem.move_eq_test moved).1
      have filled := Step.isSome_of_provides secures.sound secured
        (prepared.supplied asked.subject rfl)
      rw [empty] at filled
      contradiction

theorem BuiltFrom.follows_or_binds (builtFrom : graph.BuiltFrom problem)
    (visited : graph.Visits typing oracle input id progress) :
    graph.Follows problem (problem.Secures typing input) id progress ∨
      graph.Binds problem typing oracle input id progress := by
  refine DecisionGraph.follows_or_binds builtFrom.represents ?_ ?_ ?_ ?_ visited
  · rw [builtFrom.sameTable]
    exact MergeProblem.secures_start builtFrom.lawful.rooted
  · exact fun calls secures => secures.rest calls
  · intro state progress made slots secures performed
    rw [builtFrom.sameTable] at performed
    exact secures.afterAccess builtFrom.lawful.rooted performed
  · intro id state progress onTrue onFalse asked value _ _ secures _ filled
    exact secures.afterTest filled

/-- Where edges fall and no walk leaves the graph, a walk ends at one of the
nodes that it comes to. -/
theorem exists_halt (descending : Descending graph.nodes)
    (inside : ∀ {id progress}, graph.Visits typing oracle input id progress →
      id.index < graph.size) (fuel : Nat) {id : NodeId} {progress : Progress}
    (visited : graph.Visits typing oracle input id progress) (enough : id.index < fuel) :
    ∃ last final node, graph.Visits typing oracle input last final ∧
      graph.node? last = some node ∧ node.advance graph.table typing oracle final =
        .halt (graph.walkFrom typing oracle fuel id progress) := by
  induction fuel generalizing id progress with
  | zero => exact absurd enough (Nat.not_lt_zero _)
  | succ fuel ih =>
      obtain ⟨node, found⟩ : ∃ node, graph.node? id = some node :=
        ⟨_, Array.getElem?_eq_getElem (inside visited)⟩
      cases advanced : node.advance graph.table typing oracle progress with
      | halt run =>
          refine ⟨id, progress, node, visited, found, ?_⟩
          rw [walkFrom_halt found advanced, advanced]
      | proceed target after =>
          rw [walkFrom_proceed found advanced]
          have lower := descending id.index node found target
            (Node.mem_successors_of_proceed advanced)
          exact ih (visited.next found advanced) (by omega)

theorem BuiltFrom.walk_excused (builtFrom : graph.BuiltFrom problem)
    (ownFailures : FailsByItself oracle) {error : WalkError}
    (failed : (graph.walk typing oracle input).result = .error error) :
    ∃ last final, graph.Visits typing oracle input last final ∧
      Excused problem.types problem.table final error := by
  have inside : ∀ {id progress}, graph.Visits typing oracle input id progress →
      id.index < graph.size := by
    intro id progress visited
    rcases builtFrom.follows_or_binds visited with ⟨_, represents, _⟩ | ⟨_, _, _, _, _, _, _, leaf, _⟩
    · exact represents.inside
    · exact node?_inside leaf
  have rootInside := inside (.root : graph.Visits typing oracle input _ _)
  obtain ⟨last, final, node, visited, found, halted⟩ :=
    exists_halt builtFrom.descending inside (graph.size + 1) .root (by omega)
  refine ⟨last, final, visited, ?_⟩
  rcases builtFrom.follows_or_binds visited with follows | ⟨_, _, _, _, _, _, _, leaf, _⟩
  · exact builtFrom.halt_excused ownFailures follows found halted failed
  · obtain rfl := Option.some.inj (found.symm.trans leaf)
    have ended := (Advance.halt.inj halted).symm
    unfold walk at failed
    rw [ended] at failed
    contradiction

end DecisionGraph

variable {types : TypeOracle} {options : Options} {switch : Switch} {compiled : Compiled}

/-- A compiled switch never runs into what only a malformed graph can cause, and
finds null under an access only where a static type is broken, whatever the
types, the value and the answers to type tests are. -/
theorem Compiled.run_excused (compiles : switch.compile types options = .ok compiled)
    (typing : Typing) {oracle : GuardOracle} (ownFailures : DecisionGraph.FailsByItself oracle)
    (value : Value) {error : WalkError}
    (failed : (compiled.run typing oracle value).result = .error error) :
    error.isMalformed = false ∧ ∀ access, error = .nullInput access →
      ∃ id progress temp, compiled.graph.Visits typing oracle value id progress ∧
        progress.slots.get? temp = some .null ∧
        types.canBeNull (compiled.graph.table.typeOf temp) = false := by
  obtain ⟨problem, rfl, builtFrom⟩ :=
    DecisionGraph.exists_builtFrom (Switch.ofArms_of_compile compiles)
  obtain ⟨last, final, visited, excused⟩ := builtFrom.walk_excused ownFailures failed
  refine ⟨excused.wellFormed, fun access isNullInput => ?_⟩
  obtain ⟨temp, holdsNull, excluded⟩ := excused.findsNull access isNullInput
  exact ⟨last, final, temp, visited, holdsNull, builtFrom.sameTable ▸ excluded⟩

/-- Nothing is null by its type, so a member is read with no test before. -/
def trustingTypes : TypeOracle :=
  ⟨fun _ _ => .always, fun _ => false⟩

def memberSwitch : Switch where
  input := ⟨0⟩
  arms := [⟨.compound ⟨0⟩ none none [(.field ⟨1⟩, .var ⟨0⟩ ⟨2⟩)] none, none, ⟨0⟩⟩]

/-- Null, which is not there by its type, is what the member is read from. -/
theorem run_excused_memberSwitch :
    ∃ compiled, memberSwitch.compile trustingTypes {} = .ok compiled ∧
      ∃ id progress temp, compiled.graph.Visits ⟨fun _ => none, fun _ _ => false⟩
          (.ofFunction fun _ _ => .ok false) .null id progress ∧
        progress.slots.get? temp = some .null ∧
        trustingTypes.canBeNull (compiled.graph.table.typeOf temp) = false := by
  have ran : (memberSwitch.compile trustingTypes {}).map (fun compiled =>
      (compiled.run ⟨fun _ => none, fun _ _ => false⟩ (.ofFunction fun _ _ => .ok false)
        .null).result) = .ok (.error (.nullInput ⟨0⟩)) := by
    cbv
  cases compiles : memberSwitch.compile trustingTypes {} with
  | error error => simp [compiles, Except.map] at ran
  | ok compiled =>
      rw [compiles] at ran
      have ownFailures : DecisionGraph.FailsByItself (.ofFunction fun _ _ => .ok false) := by
        intro calls call error answered
        contradiction
      exact ⟨compiled, rfl,
        (Compiled.run_excused compiles _ ownFailures .null (Except.ok.inj ran)).2 _ rfl⟩

end MatchCompiler
