import Mathlib
import MatchCompiler.Compile
import MatchCompiler.Proofs.Hierarchy
import MatchCompiler.Proofs.Pattern.Soundness
import MatchCompiler.Proofs.Refinement

/-!
# Compiled switches do what they mean

On a value that is well typed for all of its arms, a compiled switch takes the
arm that trying the patterns one after the other takes, and calls the same
guards on the way.
-/

set_option autoImplicit false

namespace MatchCompiler

/-! ## From arms to checklists -/

/-- A checklist is laid out for an arm, in a finished table. -/
structure Arm.LaidOut (types : TypeOracle) (table : AccessTable) (arm : Arm)
    (checklist : Checklist) : Prop where
  lays : ∃ owner, arm.pattern.Lays types owner table .root ⟨checklist.steps, checklist.bindings⟩
  guard : checklist.guard = arm.guard
  label : checklist.label = arm.label
  input : table.typeOf .root = arm.pattern.input

section LayingOut

variable {types : TypeOracle} {sharing : Sharing} {table after : AccessTable}

theorem Sharing.owner_eq_error {index : Nat} {error : BuildError} :
    sharing.owner index = .error error ↔
      (sharing = .perArm ∧ 0xffffffff < index) ∧ error = .armOverflow := by
  cases sharing with
  | shared => simp [Sharing.owner]
  | perArm =>
      unfold Sharing.owner
      dsimp only
      split <;> simp_all [eq_comm]

theorem Arm.layOut_on {index : Nat} {arm : Arm} :
    (arm.layOut types sharing index).on table =
      if arm.pattern.input = table.typeOf .root then
        match sharing.owner index with
        | .ok owner =>
            match (arm.pattern.flatten types owner .root).on table with
            | (.ok fragment, after) =>
                (.ok ⟨index, fragment.steps, fragment.bindings, arm.guard, arm.label⟩, after)
            | (.error error, after) => (.error error, after)
        | .error error => (.error error, table)
      else (.error (.inputMismatch index arm.pattern.input (table.typeOf .root)), table) := by
  unfold layOut
  rw [Laying.on_bind_of_ok (Laying.on_get table)]
  dsimp only
  split
  · cases sharing.owner index with
    | error error => rfl
    | ok owner =>
        rw [Laying.on_bind_of_ok (Laying.on_liftExcept _ table), Laying.on_bind]
        dsimp only
        rcases (arm.pattern.flatten types owner .root).on table with ⟨answer, last⟩
        cases answer <;> rfl
  · rfl

/-- An arm that examines the match input at its own type is laid out, if there is
an owner for it and its parts can be counted. -/
theorem Arm.checklist_eq_ok {index : Nat} {arm : Arm} {checklist : Checklist} :
    arm.checklist types sharing index table = .ok (checklist, after) ↔
      arm.pattern.input = table.typeOf .root ∧ ∃ owner fragment,
        sharing.owner index = .ok owner ∧
        (arm.pattern.flatten types owner .root).on table = (.ok fragment, after) ∧
        checklist = ⟨index, fragment.steps, fragment.bindings, arm.guard, arm.label⟩ := by
  rw [Arm.checklist, Laying.onto_eq_ok, layOut_on]
  split
  · rename_i agrees
    cases sharing.owner index with
    | error error => simp
    | ok owner =>
        rcases laid : (arm.pattern.flatten types owner .root).on table with ⟨answer, last⟩
        cases answer <;> simp [agrees, laid, and_comm, eq_comm]
  · rename_i differs
    simp [differs]

theorem Arm.layOut_yields (types : TypeOracle) (sharing : Sharing) (index : Nat) (arm : Arm)
    {declared : TempEntry} (found : table.temp? .root = some declared) :
    (arm.layOut types sharing index).Yields table
      (arm.pattern.input = declared.type ∧ (∃ owner, sharing.owner index = .ok owner) ∧
        arm.pattern.Countable)
      fun final checklist => arm.LaidOut types final checklist ∧ checklist.index = index := by
  unfold layOut
  refine Laying.Yields.get.bind (fun _ => trivial) fun now middle grows isTable _ => ?_
  subst isTable
  have sameType : table.typeOf .root = declared.type := AccessTable.typeOf_of_temp? found
  dsimp only
  split
  · rename_i agrees
    refine Laying.Yields.liftExcept.bind (fun fits => fits.2.1) fun owner behind toBehind _ owned => ?_
    have stillFound := (grows.trans toBehind).temp? found
    refine (Pattern.flatten_yields types owner arm.pattern stillFound).bind (fun fits => fits.2.2)
      fun fragment last toLast _ countable => ?_
    refine .pure ⟨agrees.trans sameType, owned, countable⟩ fun final further lays _ _ => ?_
    refine ⟨⟨⟨owner, lays⟩, rfl, rfl, ?_⟩, rfl⟩
    rw [(((grows.trans toBehind).trans toLast).trans further).typeOf found, agrees]
  · rename_i differs
    exact .throw fun fits => differs (fits.1.trans sameType.symm)

theorem Arm.checklist_extends {index : Nat} {arm : Arm} {checklist : Checklist}
    {declared : TempEntry} (found : table.temp? .root = some declared)
    (laid : arm.checklist types sharing index table = .ok (checklist, after)) :
    table.Extends after fun final => arm.LaidOut types final checklist := by
  have extended := (Arm.layOut_yields types sharing index arm found).extended
  rw [Laying.onto_eq_ok.mp laid] at extended
  exact extended.imp fun final _ lays => (lays checklist rfl).1

theorem checklists_extends (arms : List Arm) :
    ∀ {index : Nat} {table after : AccessTable} {lists : List Checklist} {declared : TempEntry},
      table.temp? .root = some declared →
      checklists types sharing index arms table = .ok (lists, after) →
      table.Extends after fun final => List.Forall₂ (Arm.LaidOut types final) arms lists := by
  induction arms with
  | nil =>
      intro index table after lists declared found laid
      simp only [checklists, Except.ok.injEq, Prod.mk.injEq] at laid
      obtain ⟨rfl, rfl⟩ := laid
      exact .refl fun _ _ => .nil
  | cons arm arms ih =>
      intro index table after lists declared found laid
      simp only [checklists, bind_eq_ok, pure_eq_ok, Prod.mk.injEq] at laid
      obtain ⟨⟨checklist, middle⟩, first, ⟨rest, last⟩, later, rfl, rfl⟩ := laid
      have extended := Arm.checklist_extends found first
      exact (extended.trans (ih (extended.grows.temp? found) later)).imp
        fun _ _ ⟨head, tail⟩ => .cons head tail

end LayingOut

section LaidOut

variable {types : TypeOracle} {typing : Typing} {table : AccessTable} {arm : Arm}
  {checklist : Checklist} {value : Value}

theorem Arm.LaidOut.sequenced (laidOut : arm.LaidOut types table checklist) :
    Fragment.Sequenced types table [] ⟨checklist.steps, checklist.bindings⟩ := by
  obtain ⟨owner, lays⟩ := laidOut.lays
  exact Pattern.lays_sequenced types owner table arm.pattern (Or.inl rfl) lays

theorem Arm.LaidOut.closed (laidOut : arm.LaidOut types table checklist) :
    checklist.Closed table where
  ordered := fun front step back split => (laidOut.sequenced.steps front step back split).supplied
  bound := laidOut.sequenced.bound

theorem Arm.LaidOut.carries (laidOut : arm.LaidOut types table checklist) (lawful : table.Lawful)
    (sound : types.SoundFor typing) (wellTyped : arm.pattern.WellTyped types typing value) :
    Fragment.Carries types typing table value ⟨checklist.steps, checklist.bindings⟩
      (.ofInput table value) (arm.pattern.match? typing value) := by
  obtain ⟨owner, lays⟩ := laidOut.lays
  have slotsSound := Slots.sound_ofInput lawful.rooted value
  exact Pattern.carries_of_lays lawful sound value arm.pattern lays slotsSound slotsSound.root
    laidOut.input wellTyped

theorem Arm.LaidOut.run_eq (laidOut : arm.LaidOut types table checklist) (lawful : table.Lawful)
    (sound : types.SoundFor typing) (wellTyped : arm.pattern.WellTyped types typing value) :
    checklist.run typing table value = .ok (arm.pattern.match? typing value) := by
  have carries := laidOut.carries lawful sound wellTyped
  unfold Checklist.run
  generalize arm.pattern.match? typing value = result at carries ⊢
  cases carries with
  | fails stops => simp only [stops.runs, bind, Except.bind, pure, Except.pure]
  | passes passes captured =>
      simp only [passes.runs, captured, bind, Except.bind, pure, Except.pure]

theorem Arm.LaidOut.proper (laidOut : arm.LaidOut types table checklist) (lawful : table.Lawful)
    (sound : types.SoundFor typing) (wellTyped : arm.pattern.WellTyped types typing value) :
    Step.Proper types typing table checklist.steps (.ofInput table value) := by
  have carries := laidOut.carries lawful sound wellTyped
  generalize arm.pattern.match? typing value = result at carries
  cases carries with
  | fails stops => exact stops.proper
  | passes passes _ => exact passes.proper

theorem Arm.map_candidate_eq {lists : List Checklist} {arms : List Arm}
    (lawful : table.Lawful) (sound : types.SoundFor typing)
    (laidOut : List.Forall₂ (Arm.LaidOut types table) arms lists)
    (wellTyped : ∀ arm ∈ arms, arm.pattern.WellTyped types typing value) :
    lists.map (Checklist.candidate typing table value) =
      arms.map (Arm.candidate typing value) := by
  induction laidOut with
  | nil => rfl
  | cons isLaidOut _ ih =>
      rw [List.map_cons, List.map_cons,
        ih fun arm member => wellTyped arm (List.mem_cons_of_mem _ member)]
      congr 1
      unfold Checklist.candidate Arm.candidate
      rw [isLaidOut.run_eq lawful sound (wellTyped _ List.mem_cons_self), isLaidOut.guard,
        isLaidOut.label]

end LaidOut

theorem DecisionGraph.ofArms_eq_ok {types : TypeOracle} {options : Options} {input : Ty}
    {arms : List Arm} {graph : DecisionGraph}
    (built : DecisionGraph.ofArms types options input arms = .ok graph) :
    ∃ table lists, table.Lawful ∧ List.Forall₂ (Arm.LaidOut types table) arms lists ∧
      DecisionGraph.ofChecklists types options table lists = .ok graph := by
  unfold DecisionGraph.ofArms at built
  obtain ⟨⟨lists, table⟩, laid, built⟩ := bind_eq_ok.mp built
  have found : (AccessTable.ofInput input).temp? .root = some ⟨input, none, 0⟩ := rfl
  have extended := checklists_extends arms found laid
  exact ⟨table, lists, extended.lawful (AccessTable.lawful_ofInput input),
    extended.laidOut table (.refl table), built⟩

/-- A graph carries out the moves of checklists whose steps come in order. -/
structure DecisionGraph.BuiltFrom (graph : DecisionGraph) (problem : MergeProblem) : Prop where
  sameTable : graph.table = problem.table
  lawful : problem.table.Lawful
  descending : Descending graph.nodes
  represents : problem.Represents graph.nodes graph.root problem.start
  sequenced : ∀ arm, Fragment.Sequenced problem.types problem.table []
    ⟨(problem.checklist arm).steps, (problem.checklist arm).bindings⟩

theorem DecisionGraph.exists_laidOut {types : TypeOracle} {options : Options} {input : Ty}
    {arms : List Arm} {graph : DecisionGraph}
    (built : DecisionGraph.ofArms types options input arms = .ok graph) :
    ∃ problem : MergeProblem, problem.types = types ∧ graph.BuiltFrom problem ∧
      graph.armCount = problem.checklists.size ∧
      ∀ own : Fin problem.checklists.size, ∃ arm, arms[own.val]? = some arm ∧
        arm.LaidOut types problem.table (problem.checklist own) := by
  obtain ⟨table, lists, lawful, laidOut, made⟩ := DecisionGraph.ofArms_eq_ok built
  obtain ⟨_, sameTable, armCount, descending, unfolds⟩ := DecisionGraph.ofChecklists_eq_ok made
  let problem : MergeProblem := ⟨types, options.selection, table, lists.toArray⟩
  have listed : ∀ own : Fin problem.checklists.size, ∃ arm, arms[own.val]? = some arm ∧
      arm.LaidOut types problem.table (problem.checklist own) := by
    intro own
    have isList : lists[own.val]? = some (problem.checklist own) := by
      simp [problem, MergeProblem.checklist]
    exact getElem?_of_forall₂ laidOut.flip isList
  have builtFrom : graph.BuiltFrom problem := by
    refine ⟨sameTable, lawful, descending, MergeProblem.represents_of_unfolds _ unfolds, ?_⟩
    intro own
    obtain ⟨arm, _, isLaidOut⟩ := listed own
    exact isLaidOut.sequenced
  exact ⟨problem, rfl, builtFrom, by simpa [problem] using armCount, listed⟩

theorem DecisionGraph.exists_builtFrom {types : TypeOracle} {options : Options} {input : Ty}
    {arms : List Arm} {graph : DecisionGraph}
    (built : DecisionGraph.ofArms types options input arms = .ok graph) :
    ∃ problem : MergeProblem, problem.types = types ∧ graph.BuiltFrom problem := by
  obtain ⟨problem, sameTypes, builtFrom, _⟩ := DecisionGraph.exists_laidOut built
  exact ⟨problem, sameTypes, builtFrom⟩

/-! ## Compiled switches -/

theorem Switch.compile_eq_ok {types : TypeOracle} {options : Options} {switch : Switch}
    {compiled : Compiled} (compiles : switch.compile types options = .ok compiled) :
    DecisionGraph.ofArms types options switch.input switch.arms = .ok compiled.graph ∧
      compiled.coverage = compiled.graph.coverage ∧ compiled.flow = compiled.graph.flow types := by
  unfold Switch.compile at compiles
  obtain ⟨graph, built, rest⟩ := bind_eq_ok.mp compiles
  obtain ⟨plan, _, isCompiled⟩ := bind_eq_ok.mp rest
  rw [pure_eq_ok] at isCompiled
  subst isCompiled
  refine ⟨?_, rfl, rfl⟩
  cases made : DecisionGraph.ofArms types options switch.input switch.arms with
  | error error => simp [made, Except.mapError] at built
  | ok other =>
      simp only [made, Except.mapError, Except.ok.injEq] at built
      rw [built]

theorem Switch.ofArms_of_compile {types : TypeOracle} {options : Options} {switch : Switch}
    {compiled : Compiled} (compiles : switch.compile types options = .ok compiled) :
    DecisionGraph.ofArms types options switch.input switch.arms = .ok compiled.graph :=
  (Switch.compile_eq_ok compiles).1

variable {types : TypeOracle} {typing : Typing} {options : Options} {switch : Switch}
  {compiled : Compiled} {value : Value}

/-- A compiled switch tries out its arms, with any oracle about types that tells
the truth. -/
theorem Compiled.run_merges (sound : types.SoundFor typing)
    (compiles : switch.compile types options = .ok compiled)
    (wellTyped : ∀ arm ∈ switch.arms, arm.pattern.WellTyped types typing value)
    (oracle : GuardOracle) :
    Candidate.Merges options.selection oracle []
      (switch.arms.map (Arm.candidate typing value)).zipIdx
      (compiled.run typing oracle value) := by
  obtain ⟨table, lists, lawful, laidOut, built⟩ :=
    DecisionGraph.ofArms_eq_ok (Switch.ofArms_of_compile compiles)
  obtain ⟨_, sameTable, _, _, unfolds⟩ := DecisionGraph.ofChecklists_eq_ok built
  have armOf : ∀ checklist ∈ lists, ∃ arm ∈ switch.arms, arm.LaidOut types table checklist :=
    fun checklist member => exists_of_mem_forall₂ laidOut member
  have closed : ∀ checklist ∈ lists, checklist.Closed table := by
    intro checklist member
    obtain ⟨arm, _, isLaidOut⟩ := armOf checklist member
    exact isLaidOut.closed
  have proper : ∀ checklist ∈ lists,
      Step.Proper types typing table checklist.steps (.ofInput table value) := by
    intro checklist member
    obtain ⟨arm, inArms, isLaidOut⟩ := armOf checklist member
    exact isLaidOut.proper lawful sound (wellTyped arm inArms)
  have listed : ∀ arm : Fin lists.toArray.size, lists.toArray[arm] ∈ lists := by simp
  have booleans : compiled.graph.ComparesBooleans types typing oracle value :=
    DecisionGraph.comparesBooleans_of_proper
      ⟨types, options.selection, table, lists.toArray⟩ sameTable lawful.rooted
      (fun arm => closed _ (listed arm)) sound (MergeProblem.represents_of_unfolds _ unfolds)
      (fun arm => proper _ (listed arm))
  rw [← Arm.map_candidate_eq lawful sound laidOut wellTyped]
  exact DecisionGraph.walk_merges lawful.rooted closed sound built booleans

/-- On a well-typed value, a switch that was compiled in a well-formed hierarchy
does what it means. With guards that look at their call alone, the arm that is
taken is the first one that matches and whose guard accepts, and its variables
are bound in the order of its pattern. -/
theorem Compiled.run_eq_switchRun {hierarchy : Hierarchy} {primitives : PrimitiveTypes}
    (wellFormed : hierarchy.WellFormed)
    (compiles : switch.compile hierarchy.oracle options = .ok compiled)
    (wellTyped : ∀ arm ∈ switch.arms,
      arm.pattern.WellTyped hierarchy.oracle (hierarchy.typing primitives) value) :
    (∀ oracle, compiled.run (hierarchy.typing primitives) oracle value =
        switch.run (hierarchy.typing primitives) oracle value) ∧
      ∀ answer,
        Candidate.Refines answer
            (switch.arms.map (Arm.candidate (hierarchy.typing primitives) value))
            (compiled.run (hierarchy.typing primitives) (.ofFunction answer) value) ∧
          ∀ index label bindings,
            (compiled.run (hierarchy.typing primitives) (.ofFunction answer) value).result =
              .ok (.matched index label bindings) →
            ∃ arm, switch.arms[index]? = some arm ∧
              bindings.map Prod.fst = arm.pattern.boundNames := by
  have merges := Compiled.run_merges (wellFormed.sound primitives) compiles wellTyped
  refine ⟨fun oracle => (merges oracle).eq_firstMatch ?_, fun answer => ?_⟩
  · intro candidate member error failed
    obtain ⟨arm, _, rfl⟩ := List.mem_map.mp member
    cases failed
  · have refines := (merges (.ofFunction answer)).refines
    refine ⟨refines, fun index label bindings matched => ?_⟩
    obtain ⟨front, candidate, back, split, rfl, _, ⟨passes, _⟩, _⟩ := refines.matched matched
    have taken : (switch.arms.map (Arm.candidate (hierarchy.typing primitives) value))[
        front.length]? = some candidate := by
      rw [split]
      simp
    rw [List.getElem?_map] at taken
    obtain ⟨arm, found, rfl⟩ := Option.map_eq_some_iff.mp taken
    exact ⟨arm, found, arm.pattern.map_fst_of_match? _ (Except.ok.inj passes)⟩

/-- Points are shapes, and two numbers are their parts. -/
def shapes : Hierarchy :=
  (((Hierarchy.empty.addInterface "Shape").2.addSealedClass "Point" none).2.implement ⟨2⟩
    ⟨1⟩).addValueType "int" |>.2

def shapeSwitch : Switch where
  input := Hierarchy.object
  arms := [
    ⟨.compound Hierarchy.object (some ⟨2⟩)
        (some (.method ⟨0⟩, [.var ⟨3⟩ ⟨1⟩, .constant ⟨3⟩ (.int 5) ⟨3⟩])) [] none, some ⟨0⟩, ⟨0⟩⟩,
    ⟨.typed Hierarchy.object ⟨1⟩ (some ⟨2⟩), none, ⟨1⟩⟩]

/-- A point whose second part is what the first arm asks for. -/
def shapePoint : Value := .object ⟨2⟩ [] [.int 4, .int 5] []

theorem wellFormed_shapes : shapes.WellFormed :=
  .of_descending (.addValueType "int" (.implement ⟨2⟩ ⟨1⟩ (.addSealedClass "Point" none
    (.addInterface "Shape" .empty)))) (by decide) (by decide)

theorem wellTyped_shapeSwitch : ∀ arm ∈ shapeSwitch.arms,
    arm.pattern.WellTyped shapes.oracle (shapes.typing { int := some ⟨3⟩ }) shapePoint := by
  have number : ∀ wanted, (shapes.typing { int := some ⟨3⟩ }).Conforms shapes.oracle ⟨3⟩
      (.int wanted) := fun wanted => ⟨fun isNull => absurd isNull Bool.false_ne_true, fun _ => by cbv⟩
  have point : (shapes.typing { int := some ⟨3⟩ }).Conforms shapes.oracle Hierarchy.object
      shapePoint := ⟨fun isNull => absurd isNull Bool.false_ne_true, fun _ => by cbv⟩
  intro arm member
  simp only [shapeSwitch, List.mem_cons, List.not_mem_nil, or_false] at member
  rcases member with rfl | rfl
  · refine ⟨point, fun _ => ⟨⟨_, rfl, rfl⟩, ?_⟩⟩
    intro values positional
    obtain rfl : [.int 4, .int 5] = values := Option.some.inj positional
    have five : Pattern.WellTyped shapes.oracle (shapes.typing { int := some ⟨3⟩ })
        (.constant ⟨3⟩ (.int 5) ⟨3⟩) (.int 5) :=
      ⟨number 5, fun _ isBool => by cases isBool⟩
    exact ⟨⟨trivial, fun _ => ⟨five, fun _ => trivial⟩⟩, fun _ => trivial⟩
  · exact point

theorem run_eq_switchRun_shapes :
    ∃ compiled, shapeSwitch.compile shapes.oracle {} = .ok compiled ∧
      compiled.run (shapes.typing { int := some ⟨3⟩ }) (.ofFunction fun _ _ => .ok false)
          shapePoint =
        shapeSwitch.run (shapes.typing { int := some ⟨3⟩ }) (.ofFunction fun _ _ => .ok false)
          shapePoint := by
  have succeeds : (shapeSwitch.compile shapes.oracle {}).toOption.isSome = true := by cbv
  cases compiles : shapeSwitch.compile shapes.oracle {} with
  | error error => simp [compiles, Except.toOption] at succeeds
  | ok compiled =>
      exact ⟨compiled, rfl,
        (Compiled.run_eq_switchRun wellFormed_shapes compiles wellTyped_shapeSwitch).1 _⟩

end MatchCompiler
