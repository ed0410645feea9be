import MatchCompiler.Proofs.BlockPlan.Totality
import MatchCompiler.Proofs.Compile
import MatchCompiler.Proofs.DecisionGraph.Shape
import MatchCompiler.Proofs.Residual.Course

/-!
# How a compilation ends

There are two reasons for a compilation to fail: an arm that examines another
type than the switch does, and a graph with too many nodes. No graph is refused
when its blocks are laid out.
-/

set_option autoImplicit false

namespace MatchCompiler

/-! ## Built graphs can be laid out -/

namespace DecisionGraph

variable {graph : DecisionGraph} {problem : MergeProblem}

/-- Where a comparison came out true, no arm is left that waits for another
constant. -/
theorem pruned_of_represents
    (represents : problem.Represents graph.nodes graph.root problem.start) : graph.Pruned := by
  intro id next other subject link also reached compared alsoCompared apart
  obtain ⟨found, _⟩ := node?_of_comparison? compared
  obtain ⟨alsoFound, _⟩ := node?_of_comparison? alsoCompared
  obtain ⟨turns, path⟩ := exists_path_of_reaches reached
  have onward := path.snoc found (List.mem_cons_self : (Turn.test _ true, _) ∈ Node.turns _)
  have unsettled := onward.settles represents alsoFound rfl _ (List.mem_append_right _ List.mem_cons_self)
  have settled : Residual.settled problem ⟨subject, .equals link.constant⟩ true
      (.test ⟨subject, .equals also.constant⟩) = some false := by
    simp only [Residual.settled, if_true]
    exact Predicate.implied_of_apart _ _ (isSwitchable_of_comparison? compared)
      (isSwitchable_of_comparison? alsoCompared) apart
  rw [Turn.settles, settled] at unsettled
  contradiction

theorem ofChecklists_lowerable {types : TypeOracle} {options : Options} {table : AccessTable}
    {checklists : List Checklist}
    (built : ofChecklists types options table checklists = .ok graph) : graph.Lowerable := by
  obtain ⟨_, _, _, descending, unfolds⟩ := ofChecklists_eq_ok built
  refine {
    acyclic := acyclic_of_descending descending
    inside := ?_
    falls := ?_
    pruned := pruned_of_represents (MergeProblem.represents_of_unfolds _ unfolds) }
  · intro source target _ edge
    obtain ⟨node, found, member⟩ := exists_node_of_edge edge
    exact (descending _ node found target member).trans edge.source_inside
  · intro id accepted rejected arm label bindings condition _ found
    obtain ⟨_, _, _, _, _, _, decides⟩ := serves_of_built built found
    exact decides

end DecisionGraph

/-! ## Laying out the arms -/

section Arms

variable {types : TypeOracle} {sharing : Sharing} {table : AccessTable} {declared : TempEntry}

theorem Sharing.exists_owner {index : Nat} (fits : sharing = .perArm → index ≤ 0xffffffff) :
    ∃ owner, sharing.owner index = .ok owner := by
  cases owned : sharing.owner index with
  | ok owner => exact ⟨owner, rfl⟩
  | error error =>
      obtain ⟨⟨isPerArm, above⟩, _⟩ := Sharing.owner_eq_error.mp owned
      exact absurd (fits isPerArm) (Nat.not_le.mpr above)

theorem Arm.checklist_eq_inputMismatch {index : Nat} {arm : Arm}
    (found : table.temp? .root = some declared) (differs : arm.pattern.input ≠ declared.type) :
    arm.checklist types sharing index table =
      .error (.inputMismatch index arm.pattern.input declared.type) := by
  rw [← AccessTable.typeOf_of_temp? found] at differs ⊢
  rw [Arm.checklist, Laying.onto_eq_error, Arm.layOut_on, if_neg differs]

theorem Arm.exists_checklist (types : TypeOracle) (sharing : Sharing) {index : Nat} {arm : Arm}
    (found : table.temp? .root = some declared) (agrees : arm.pattern.input = declared.type)
    (countable : arm.pattern.Countable) (few : index < 2 ^ 32) :
    ∃ checklist after, arm.checklist types sharing index table = .ok (checklist, after) ∧
      checklist.index = index := by
  have owned : ∃ owner, sharing.owner index = .ok owner :=
    Sharing.exists_owner fun _ => Nat.le_of_lt_succ few
  have yields := Arm.layOut_yields types sharing index arm found
  obtain ⟨checklist, isChecklist⟩ := yields.succeeds.mpr ⟨agrees, owned, countable⟩
  have numbered := (yields.extended.laidOut _ (.refl _) checklist isChecklist).2
  exact ⟨checklist, _, Laying.onto_eq_ok.mpr (Prod.ext isChecklist rfl), numbered⟩

theorem exists_checklists (types : TypeOracle) (sharing : Sharing) (arms : List Arm) :
    ∀ {index : Nat} {table : AccessTable}, table.temp? .root = some declared →
      (∀ arm ∈ arms, arm.pattern.input = declared.type) →
      (∀ arm ∈ arms, arm.pattern.Countable) → index + arms.length ≤ 2 ^ 32 →
      ∃ lists after, checklists types sharing index arms table = .ok (lists, after) ∧
        ∀ (position : Nat) (checklist : Checklist), lists[position]? = some checklist →
          checklist.index = index + position := by
  induction arms with
  | nil =>
      intro index table _ _ _ _
      exact ⟨[], table, rfl, by simp⟩
  | cons arm arms ih =>
      intro index table found agree countable few
      rw [List.length_cons] at few
      obtain ⟨checklist, middle, first, numbered⟩ :=
        Arm.exists_checklist types sharing found (agree arm List.mem_cons_self)
          (countable arm List.mem_cons_self) (by omega : index < 2 ^ 32)
      have stillFound := (Arm.checklist_extends found first).grows.temp? found
      obtain ⟨rest, after, later, restNumbered⟩ := ih stillFound
        (fun other member => agree other (List.mem_cons_of_mem _ member))
        (fun other member => countable other (List.mem_cons_of_mem _ member))
        (by omega : index + 1 + arms.length ≤ 2 ^ 32)
      refine ⟨checklist :: rest, after, ?_, ?_⟩
      · simp only [checklists, first, later, ok_bind]
        rfl
      · intro position other isOther
        cases position with
        | zero =>
            obtain rfl := Option.some.inj isOther
            exact numbered
        | succ position =>
            rw [restNumbered position other isOther]
            omega

theorem checklists_eq_inputMismatch {stray : Arm} {back : List Arm}
    (differs : stray.pattern.input ≠ declared.type) (front : List Arm) :
    ∀ {index : Nat} {table : AccessTable}, table.temp? .root = some declared →
      (∀ arm ∈ front, arm.pattern.input = declared.type) →
      (∀ arm ∈ front, arm.pattern.Countable) → index + front.length ≤ 2 ^ 32 →
      checklists types sharing index (front ++ stray :: back) table =
        .error (.inputMismatch (index + front.length) stray.pattern.input declared.type) := by
  induction front with
  | nil =>
      intro index table found _ _ _
      simp only [List.nil_append, checklists, Arm.checklist_eq_inputMismatch found differs]
      rfl
  | cons arm front ih =>
      intro index table found agree countable few
      rw [List.length_cons] at few
      obtain ⟨checklist, middle, first, _⟩ :=
        Arm.exists_checklist types sharing found (agree arm List.mem_cons_self)
          (countable arm List.mem_cons_self) (by omega : index < 2 ^ 32)
      have stillFound := (Arm.checklist_extends found first).grows.temp? found
      have behind := ih stillFound (fun other member => agree other (List.mem_cons_of_mem _ member))
        (fun other member => countable other (List.mem_cons_of_mem _ member))
        (by omega : index + 1 + front.length ≤ 2 ^ 32)
      simp only [List.cons_append, checklists, first, behind, ok_bind]
      rw [List.length_cons, Nat.add_right_comm, Nat.add_assoc]
      rfl

end Arms

/-! ## Building the graph -/

namespace DecisionGraph

variable {types : TypeOracle} {options : Options} {input : Ty}

theorem ofChecklists_endsWithin {table : AccessTable} {checklists : List Checklist}
    (numbered : misnumbered? checklists = none) :
    EndsWithin options.nodeLimit Lowerable (ofChecklists types options table checklists) := by
  have ends : EndsWithin options.nodeLimit (fun _ => True)
      (ofChecklists types options table checklists) := by
    unfold ofChecklists
    rw [numbered]
    exact (MergeProblem.build_endsWithin options.nodeLimit _ .empty).bind fun _ _ => .ok trivial
  exact ends.imp fun graph built _ => ofChecklists_lowerable built

theorem ofArms_endsWithin {arms : List Arm} (agree : ∀ arm ∈ arms, arm.pattern.input = input)
    (countable : ∀ arm ∈ arms, arm.pattern.Countable) (few : arms.length ≤ 2 ^ 32) :
    EndsWithin options.nodeLimit Lowerable (ofArms types options input arms) := by
  have found : (AccessTable.ofInput input).temp? .root = some ⟨input, none, 0⟩ := rfl
  obtain ⟨lists, table, laid, numbered⟩ := exists_checklists types options.sharing arms found agree
    countable (by omega : 0 + arms.length ≤ 2 ^ 32)
  unfold ofArms
  rw [laid, ok_bind]
  refine ofChecklists_endsWithin (misnumbered?_eq_none_iff.mpr fun position checklist isList => ?_)
  rw [numbered position checklist isList, Nat.zero_add]

theorem ofArms_eq_inputMismatch {front back : List Arm} {stray : Arm}
    (agree : ∀ arm ∈ front, arm.pattern.input = input)
    (countable : ∀ arm ∈ front, arm.pattern.Countable) (differs : stray.pattern.input ≠ input)
    (few : front.length ≤ 2 ^ 32) :
    ofArms types options input (front ++ stray :: back) =
      .error (.inputMismatch front.length stray.pattern.input input) := by
  have found : (AccessTable.ofInput input).temp? .root = some ⟨input, none, 0⟩ := rfl
  unfold ofArms
  rw [checklists_eq_inputMismatch differs front found agree countable (by omega), Nat.zero_add]
  rfl

end DecisionGraph

/-! ## The whole compilation -/

theorem Switch.exists_compiled {types : TypeOracle} {options : Options} {switch : Switch}
    {graph : DecisionGraph}
    (built : DecisionGraph.ofArms types options switch.input switch.arms = .ok graph) :
    ∃ compiled, switch.compile types options = .ok compiled ∧ compiled.graph = graph ∧
      compiled.flow = graph.flow types := by
  obtain ⟨table, lists, _, _, made⟩ := DecisionGraph.ofArms_eq_ok built
  obtain ⟨plan, lowered⟩ :=
    (DecisionGraph.ofChecklists_lowerable made).exists_lower options.minTableEntries
  refine ⟨⟨graph, graph.coverage, graph.flow types, plan⟩, ?_, rfl, rfl⟩
  unfold Switch.compile
  rw [built]
  simp only [Except.mapError, ok_bind, lowered]
  rfl

/-- As long as 32 bits are enough for all numbers, the first arm that examines
another type than the switch fails the compilation. Without one, only the limit on
nodes does: a graph that was built can be laid out, whatever is made a table. -/
theorem Switch.compile_outcome (types : TypeOracle) (options : Options) (switch : Switch)
    (few : switch.arms.length ≤ 2 ^ 32) (small : ∀ arm ∈ switch.arms, arm.pattern.size < 2 ^ 32)
    (limited : options.nodeLimit ≤ 2 ^ 32) :
    (∀ front stray back, switch.arms = front ++ stray :: back →
        (∀ arm ∈ front, arm.pattern.input = switch.input) → stray.pattern.input ≠ switch.input →
        switch.compile types options =
          .error (.build (.inputMismatch front.length stray.pattern.input switch.input))) ∧
      ((∀ arm ∈ switch.arms, arm.pattern.input = switch.input) →
        (∃ compiled, switch.compile types options = .ok compiled) ∨
          switch.compile types options = .error (.build (.tooComplex options.nodeLimit))) ∧
      ∀ graph, DecisionGraph.ofArms types options switch.input switch.arms = .ok graph →
        ∀ minEntries, ∃ plan, graph.lower minEntries = .ok plan := by
  have countable : ∀ arm ∈ switch.arms, arm.pattern.Countable := fun arm member =>
    arm.pattern.countable_of_size_lt (small arm member)
  refine ⟨?_, ?_, ?_⟩
  · intro front stray back split agree differs
    rw [split] at few countable
    have short : front.length ≤ 2 ^ 32 := by
      rw [List.length_append] at few
      omega
    have inFront : ∀ arm ∈ front, arm.pattern.Countable := fun arm member =>
      countable arm (List.mem_append_left _ member)
    unfold Switch.compile
    rw [split, DecisionGraph.ofArms_eq_inputMismatch agree inFront differs short]
    rfl
  · intro agree
    unfold Switch.compile
    rcases (DecisionGraph.ofArms_endsWithin agree countable few).ok_or_tooComplex limited with
      ⟨graph, built, lowerable⟩ | full
    · obtain ⟨plan, lowered⟩ := lowerable.exists_lower options.minTableEntries
      refine Or.inl ⟨⟨graph, graph.coverage, graph.flow types, plan⟩, ?_⟩
      rw [built]
      simp only [Except.mapError, ok_bind, lowered]
      rfl
    · refine Or.inr ?_
      rw [full]
      rfl
  · intro graph built minEntries
    obtain ⟨table, lists, _, _, made⟩ := DecisionGraph.ofArms_eq_ok built
    exact (DecisionGraph.ofChecklists_lowerable made).exists_lower minEntries

/-- The last arm is about a number. -/
def straySwitch : Switch :=
  { shapeSwitch with arms := shapeSwitch.arms ++ [⟨.discard ⟨3⟩, none, ⟨2⟩⟩] }

theorem compile_outcome_shapes :
    straySwitch.compile shapes.oracle {} =
        .error (.build (.inputMismatch 2 ⟨3⟩ Hierarchy.object)) ∧
      ∃ graph, DecisionGraph.ofArms shapes.oracle {} shapeSwitch.input shapeSwitch.arms =
          .ok graph ∧
        ∀ minEntries, ∃ plan, graph.lower minEntries = .ok plan := by
  constructor
  · exact (Switch.compile_outcome shapes.oracle {} straySwitch (by decide) (by decide)
      (by decide)).1 shapeSwitch.arms
      ⟨.discard ⟨3⟩, none, ⟨2⟩⟩ [] rfl (by decide) (by decide)
  · have succeeds : (DecisionGraph.ofArms shapes.oracle {} shapeSwitch.input
        shapeSwitch.arms).toOption.isSome = true := by cbv
    cases built : DecisionGraph.ofArms shapes.oracle {} shapeSwitch.input shapeSwitch.arms with
    | error error => simp [built, Except.toOption] at succeeds
    | ok graph =>
        exact ⟨graph, rfl,
          (Switch.compile_outcome shapes.oracle {} shapeSwitch (by decide) (by decide)
            (by decide)).2.2 graph built⟩

end MatchCompiler
