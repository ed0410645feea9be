import Mathlib
import MatchCompiler.Proofs.Compile.Outcome
import MatchCompiler.Proofs.Flow.Narrowing
import MatchCompiler.Proofs.Flow.Variables

/-!
# Variables that are not null

The variable of a pattern that null never matches is bound behind a null test, or
to what a cast yields. The test may never be asked, where another outcome settles
it; but then that outcome excludes null, too, and so do all facts behind it. A
value whose static type excludes null is one that is not null, unless null was
asked for nevertheless and has been found.
-/

set_option autoImplicit false

namespace MatchCompiler

namespace DecisionGraph

variable {graph : DecisionGraph} {problem : MergeProblem} {types : TypeOracle} {id : NodeId}
  {turns : List Turn} {temp : Temp} {fact : Fact}

/-! ## On one way -/

/-- A cast is made of a value that is not null: behind its type test, or nowhere,
behind the test that is never true. -/
theorem BuiltFrom.notNull_of_cast (builtFrom : graph.BuiltFrom problem)
    (way : graph.Way turns id) {made : Access} {next : NodeId} {entry : AccessEntry} {type : Ty}
    (stored : graph.node? id = some (.access made next))
    (isEntry : graph.table.access? made = some entry) (isCast : entry.kind = .cast type)
    (found : (Facts.along types graph.table turns).get? entry.input = some fact) :
    fact.nullness = .notNull := by
  rcases way.path.represents builtFrom.represents with here | ⟨_, _, _, _, _, leaf⟩
  · obtain ⟨pending, inState, isHead⟩ := waiting_of_represents here stored rfl
    obtain ⟨front, back, split, done⟩ := (Residual.leftOf_along inState).head isHead
    have prepared := (builtFrom.sequenced pending.arm).steps front _ back split
    have sameEntry : problem.table.access? made = some entry := builtFrom.sameTable ▸ isEntry
    rcases prepared.guarded made entry type rfl sameEntry isCast with tested | impossible
    · obtain ⟨turn, inTurns, settled⟩ := done _ tested
      exact builtFrom.notNull_of_settled way.path (Or.inr ⟨type, rfl⟩) inTurns settled found
    · obtain ⟨turn, inTurns, settled⟩ := done _ impossible
      exact absurd (way.possible turn inTurns) (Turn.not_possible_of_settles settled)
  · cases stored.symm.trans leaf

/-- What a cast yields is not null: the cast comes behind its type test, and nobody
asks whether its output is null. -/
theorem BuiltFrom.notNull_of_isCast (builtFrom : graph.BuiltFrom problem)
    (apt : ∀ own, ∀ step ∈ (problem.checklist own).steps, step.Apt problem.types problem.table)
    (way : graph.Way turns id) (isCast : graph.table.IsCast temp)
    (found : (Facts.along types graph.table turns).get? temp = some fact) :
    fact.nullness = .notNull := by
  have rooted : graph.table.Rooted := builtFrom.sameTable ▸ builtFrom.lawful.rooted
  refine Facts.invariant_along (fun fact => fact.nullness = .notNull) ?_ ?_ ?_ found
  · rintro rfl
    exact absurd isCast (AccessTable.not_isCast_root rooted)
  · rintro front made entry back rfl isEntry isOutput
    obtain ⟨source, node, target, before, stored, taken⟩ := way.path.exists_of_split
    obtain rfl := Node.eq_access_of_turn taken
    obtain ⟨type, isKind⟩ := (AccessTable.isCast_iff_of_output isEntry isOutput).mp isCast
    obtain ⟨input, isInput⟩ := Option.ne_none_iff_exists'.mp
      (builtFrom.input_known before stored isEntry types)
    have earlier : graph.Way front source :=
      ⟨before, fun turn member => way.possible turn (List.mem_append_left _ member)⟩
    have notNull : input.nullness = .notNull :=
      builtFrom.notNull_of_cast earlier stored isEntry isKind isInput
    rw [isInput, isKind]
    exact notNull
  · intro predicate outcome before member notNull
    have isApt := builtFrom.apt_of_mem apt way.path member
    refine Predicate.notNull_refine notNull ?_ ?_
    · rintro ⟨rfl, _⟩
      exact isApt.examined rfl isCast
    · rintro constant rfl
      exact isApt.valued rfl

theorem BuiltFrom.notNull_of_static (builtFrom : graph.BuiltFrom problem)
    (apt : ∀ own, ∀ step ∈ (problem.checklist own).steps, step.Apt problem.types problem.table)
    (path : graph.Path graph.root turns id)
    (excluded : types.canBeNull (graph.table.typeOf temp) = false)
    (notCast : ¬ graph.table.IsCast temp) (unfound : .test ⟨temp, .isNull⟩ true ∉ turns)
    (found : (Facts.along types graph.table turns).get? temp = some fact) :
    fact.nullness = .notNull := by
  have static : (Fact.ofStatic types graph.table temp).nullness = .notNull := by
    simp [Fact.ofStatic, excluded]
  refine Facts.invariant_along (fun fact => fact.nullness = .notNull) ?_ ?_ ?_ found
  · rintro rfl
    exact static
  · intro front made entry back _ isEntry isOutput
    unfold Facts.produced
    split
    · rename_i type input isKind _
      have isCast := (AccessTable.isCast_iff_of_output isEntry isOutput).mpr ⟨type, isKind⟩
      exact absurd isCast notCast
    · exact static
  · intro predicate outcome before member notNull
    have isApt := builtFrom.apt_of_mem apt path member
    refine Predicate.notNull_refine notNull ?_ ?_
    · rintro ⟨rfl, rfl⟩
      exact unfound member
    · rintro constant rfl
      exact isApt.valued rfl

/-- Where an arm binds its variables, a value that its checklist has checked is not
null, whichever outcome has settled the null test. -/
theorem BuiltFrom.notNull_of_checked (builtFrom : graph.BuiltFrom problem)
    (apt : ∀ own, ∀ step ∈ (problem.checklist own).steps, step.Apt problem.types problem.table)
    {own : Fin problem.checklists.size} (binds : graph.BindsArm own id) (way : graph.Way turns id)
    (checked : Step.Checked graph.table (problem.checklist own).steps temp)
    (found : (Facts.along types graph.table turns).get? temp = some fact) :
    fact.nullness = .notNull := by
  rcases checked with tested | isCast
  · obtain ⟨turn, inTurns, settled⟩ := builtFrom.all_done binds way.path _ tested
    exact builtFrom.notNull_of_settled way.path (Or.inl rfl) inTurns settled found
  · exact builtFrom.notNull_of_isCast apt way isCast found

/-! ## At all nodes of an arm -/

variable {arms : List Arm} {entry : VariableFact}

theorem BuiltForArms.notNull_of_demandsValue (builtFor : graph.BuiltForArms problem arms)
    {own : Fin problem.checklists.size} {arm : Arm} (isArm : arms[own.val]? = some arm)
    (binds : graph.BindsArm own id) (feasible : graph.Feasible id) :
    List.Forall₂ (fun binder entry => entry.name = binder.1 ∧
        (binder.2.demandsValue = true → problem.types.canBeNull binder.2.input = true →
          entry.fact.nullness = .notNull))
      arm.pattern.binders ((graph.flow problem.types).variablesOf own) := by
  obtain ⟨_, sameArm, suits⟩ := builtFor.suits own
  obtain rfl := Option.some.inj (isArm.symm.trans sameArm)
  have joins := builtFor.joins_variablesOf problem.types (builtFor.inside own) binds feasible
  refine comp_of_forall₂ suits.bound joins fun binder binding entry boundBy joined => ?_
  refine ⟨joined.name.trans boundBy.name, fun demands nullable => ?_⟩
  rw [joined.fact.notNull]
  rintro fact ⟨_, ⟨node, bindsThere, turns, way, rfl⟩, found⟩
  have checked : Step.Checked graph.table (problem.checklist own).steps binding.temp :=
    builtFor.sameTable ▸ boundBy.checked demands nullable
  exact builtFor.notNull_of_checked builtFor.apt bindsThere way checked found

/-- Where the static type excludes null, a variable may be null if and only if a
way to its arm has found null. -/
theorem BuiltForArms.notNull_iff_unfound (builtFor : graph.BuiltForArms problem arms)
    {own : Fin problem.checklists.size}
    (member : entry ∈ (graph.flow problem.types).variablesOf own)
    (excluded : problem.types.canBeNull (graph.table.typeOf entry.temp) = false) :
    entry.fact.nullness = .notNull ↔ ∀ id turns, graph.BindsArm own id → graph.Way turns id →
      .test ⟨entry.temp, .isNull⟩ true ∉ turns := by
  obtain ⟨bound, isJoin⟩ :=
    builtFor.isJoin_of_mem_variablesOf problem.types (builtFor.inside own) member
  rw [isJoin.notNull]
  constructor
  · intro notNull id turns binds way nullFound
    have filled : (Facts.along problem.types graph.table turns).get? entry.temp ≠ none :=
      builtFor.bindings_filled binds way.path _ bound
    obtain ⟨fact, found⟩ := Option.ne_none_iff_exists'.mp filled
    have maybeNull := builtFor.maybeNull_of_found way.path nullFound found
    rw [notNull fact ⟨_, ⟨id, binds, turns, way, rfl⟩, found⟩] at maybeNull
    contradiction
  · rintro unfound fact ⟨_, ⟨id, binds, turns, way, rfl⟩, found⟩
    by_cases isCast : graph.table.IsCast entry.temp
    · exact builtFor.notNull_of_isCast builtFor.apt way isCast found
    · exact builtFor.notNull_of_static builtFor.apt way.path excluded isCast
        (unfound id turns binds way) found

end DecisionGraph

/-! ## Compiled switches -/

variable {types : TypeOracle} {options : Options} {switch : Switch} {compiled : Compiled}
  {index : Nat}

/-- An arm that binds its variables at a node that some run reaches has an entry
for each of them, in their order. The variable of a type pattern or a pattern
with parts is known not to be null, at whatever depth, wherever the examined value
could be null. -/
theorem Compiled.variables_notNull (compiles : switch.compile types options = .ok compiled)
    {arm : Arm} (isArm : switch.arms[index]? = some arm) {id : NodeId} {label : Label}
    {bindings : List Binding} {guard : Option Guard} {accepted : NodeId} {rejected : Option NodeId}
    (found : compiled.graph.node? id =
      some (.bind index label bindings guard accepted rejected))
    (reached : id ∉ compiled.flow.unreachable) :
    (compiled.flow.variablesOf index).map (fun entry => ⟨entry.name, entry.temp⟩) = bindings ∧
      (compiled.flow.variablesOf index).map VariableFact.name = arm.pattern.boundNames ∧
      List.Forall₂ (fun binder entry => entry.name = binder.1 ∧
          (binder.2.demandsValue = true → types.canBeNull binder.2.input = true →
            entry.fact.nullness = .notNull))
        arm.pattern.binders (compiled.flow.variablesOf index) := by
  obtain ⟨built, _, isFlow⟩ := Switch.compile_eq_ok compiles
  obtain ⟨problem, rfl, builtFor⟩ := DecisionGraph.exists_builtForArms built
  have acyclic := DecisionGraph.acyclic_of_descending builtFor.descending
  have feasible : compiled.graph.Feasible id := by
    rw [isFlow, DecisionGraph.mem_unreachable_flow_iff acyclic problem.types
      (DecisionGraph.node?_inside found), not_not] at reached
    exact reached
  obtain ⟨own, rfl, rfl⟩ :=
    DecisionGraph.bindings_of_reaches builtFor.represents feasible.reaches found
  have binds : compiled.graph.BindsArm own id := ⟨_, _, _, _, _, found⟩
  have entries := builtFor.notNull_of_demandsValue isArm binds feasible
  have joins := builtFor.joins_variablesOf problem.types (builtFor.inside own) binds feasible
  rw [isFlow]
  refine ⟨?_, ?_, entries⟩
  · rw [map_eq_of_forall₂ joins fun binding entry joined => by rw [joined.name, joined.temp],
      List.map_id']
  · rw [← Pattern.map_fst_binders]
    exact map_eq_of_forall₂ entries fun binder entry bound => bound.1

/-- Null, or else anything. -/
def nullOrThing : Switch where
  input := Hierarchy.object
  arms := [⟨.null Hierarchy.object, none, ⟨0⟩⟩,
    ⟨.compound Hierarchy.object none none [] (some ⟨3⟩), none, ⟨1⟩⟩]

def nullOrThingGraph : DecisionGraph where
  nodes := #[.success 0 ⟨0⟩, .success 1 ⟨1⟩, .bind 1 ⟨1⟩ [⟨⟨3⟩, .root⟩] none ⟨1⟩ none,
    .test ⟨.root, .isNull⟩ ⟨0⟩ ⟨2⟩]
  root := ⟨3⟩
  table := .ofInput Hierarchy.object
  armCount := 2

/-- The second arm is not asked for its null test, which the first one has settled. -/
theorem variables_notNull_nullOrThing :
    ∃ compiled, nullOrThing.compile shapes.oracle {} = .ok compiled ∧
      compiled.graph.countTests ⟨.root, .nonNull⟩ = 0 ∧
      ∃ entry ∈ compiled.flow.variablesOf 1, entry.name = ⟨3⟩ ∧ entry.fact.nullness = .notNull := by
  have built : DecisionGraph.ofArms shapes.oracle {} nullOrThing.input nullOrThing.arms =
      .ok nullOrThingGraph := by
    cbv
  obtain ⟨compiled, compiles, isGraph, isFlow⟩ := Switch.exists_compiled built
  have isArm : nullOrThing.arms[1]? =
      some ⟨.compound Hierarchy.object none none [] (some ⟨3⟩), none, ⟨1⟩⟩ := rfl
  have found : compiled.graph.node? ⟨2⟩ = some (.bind 1 ⟨1⟩ [⟨⟨3⟩, .root⟩] none ⟨1⟩ none) := by
    rw [isGraph]
    rfl
  have reached : compiled.flow.unreachable = [] := by
    rw [isFlow]
    cbv
  obtain ⟨_, _, entries⟩ :=
    Compiled.variables_notNull compiles isArm found (by rw [reached]; exact List.not_mem_nil)
  obtain ⟨entry, member, sameName, notNull⟩ :=
    exists_mem_of_forall₂ entries (List.mem_singleton_self _)
  exact ⟨compiled, compiles, by rw [isGraph]; cbv, entry, member, sameName, notNull rfl rfl⟩

/-- Where the static type of a variable excludes null, it is said not to be null,
unless its arm is behind a test for null that came out true. -/
theorem Compiled.variable_notNull_iff (compiles : switch.compile types options = .ok compiled)
    {entry : VariableFact} (member : entry ∈ compiled.flow.variablesOf index)
    (excluded : types.canBeNull (compiled.graph.table.typeOf entry.temp) = false) :
    entry.fact.nullness = .notNull ↔
      ∀ id turns, compiled.graph.BindsArm index id → compiled.graph.Way turns id →
        .test ⟨entry.temp, .isNull⟩ true ∉ turns := by
  obtain ⟨built, _, isFlow⟩ := Switch.compile_eq_ok compiles
  obtain ⟨problem, rfl, builtFor⟩ := DecisionGraph.exists_builtForArms built
  rw [isFlow] at member
  have inside := DecisionGraph.lt_armCount_of_mem_variablesOf member
  rw [builtFor.counted] at inside
  let own : Fin problem.checklists.size := ⟨index, inside⟩
  have isOwn : entry ∈ (compiled.graph.flow problem.types).variablesOf own := member
  exact builtFor.notNull_iff_unfound isOwn excluded

/-- A number that is asked whether it is null, and whatever a guard then rejects. -/
def askedNumber : Switch where
  input := ⟨3⟩
  arms := [⟨.null ⟨3⟩, some ⟨0⟩, ⟨0⟩⟩, ⟨.var ⟨3⟩ ⟨4⟩, none, ⟨1⟩⟩]

def askedNumberGraph : DecisionGraph where
  nodes := #[.success 0 ⟨0⟩, .success 1 ⟨1⟩, .bind 1 ⟨1⟩ [⟨⟨4⟩, .root⟩] none ⟨1⟩ none,
    .bind 0 ⟨0⟩ [] (some ⟨0⟩) ⟨0⟩ (some ⟨2⟩), .test ⟨.root, .isNull⟩ ⟨3⟩ ⟨2⟩]
  root := ⟨4⟩
  table := .ofInput ⟨3⟩
  armCount := 2

theorem exists_compiled_askedNumber :
    ∃ compiled, askedNumber.compile shapes.oracle {} = .ok compiled ∧
      compiled.graph = askedNumberGraph ∧
      compiled.flow.variablesOf 1 = [⟨⟨4⟩, .root, ⟨.maybeNull, ⟨3⟩⟩⟩] := by
  have built : DecisionGraph.ofArms shapes.oracle {} askedNumber.input askedNumber.arms =
      .ok askedNumberGraph := by
    cbv
  obtain ⟨compiled, compiles, isGraph, isFlow⟩ := Switch.exists_compiled built
  refine ⟨compiled, compiles, isGraph, ?_⟩
  rw [isFlow]
  cbv

/-- A number can be said to be null: the test for null that it needs not be asked
has come out true on a way to its arm. -/
theorem maybeNull_askedNumber :
    shapes.WellFormed ∧ ∃ compiled, askedNumber.compile shapes.oracle {} = .ok compiled ∧
      ¬ ∀ arm, ∀ entry ∈ compiled.flow.variablesOf arm,
        shapes.canBeNull (compiled.graph.table.typeOf entry.temp) = false →
          entry.fact.nullness = .notNull := by
  obtain ⟨compiled, compiles, isGraph, entries⟩ := exists_compiled_askedNumber
  refine ⟨wellFormed_shapes, compiled, compiles, fun always => ?_⟩
  have told := always 1 ⟨⟨4⟩, .root, ⟨.maybeNull, ⟨3⟩⟩⟩ (by rw [entries]; simp)
    (by rw [isGraph]; cbv)
  contradiction

theorem variable_notNull_iff_askedNumber :
    ∃ compiled, askedNumber.compile shapes.oracle {} = .ok compiled ∧
      shapes.canBeNull (compiled.graph.table.typeOf .root) = false ∧
      ∃ id turns, compiled.graph.BindsArm 1 id ∧ compiled.graph.Way turns id ∧
        .test ⟨.root, .isNull⟩ true ∈ turns := by
  obtain ⟨compiled, compiles, isGraph, entries⟩ := exists_compiled_askedNumber
  have excluded : shapes.oracle.canBeNull (compiled.graph.table.typeOf .root) = false := by
    rw [isGraph]
    cbv
  refine ⟨compiled, compiles, excluded, ?_⟩
  by_contra unfound
  simp only [not_exists, not_and] at unfound
  have member : (⟨⟨4⟩, .root, ⟨.maybeNull, ⟨3⟩⟩⟩ : VariableFact) ∈ compiled.flow.variablesOf 1 := by
    rw [entries]
    exact List.mem_singleton_self _
  have notNull := (Compiled.variable_notNull_iff compiles member excluded).mpr unfound
  contradiction

end MatchCompiler
