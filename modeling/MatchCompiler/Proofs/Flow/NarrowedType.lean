import Mathlib
import MatchCompiler.Proofs.Compile.Outcome
import MatchCompiler.Proofs.Flow.Narrowing
import MatchCompiler.Proofs.Reachability

/-!
# Narrowed types

What is known about the type of a value is its static type, or a type that every
way has asked for and confirmed. A type is only asked for where the static type
leaves it open. In a class hierarchy such a type lies below the static one, or it
crosses it: one of the two is an interface, and neither is below the other. Then
the fact tells of the type that was confirmed and no longer of the static one.
-/

set_option autoImplicit false

namespace MatchCompiler

namespace Hierarchy

/-- Unrelated types with room for a type below both: one of them is an interface,
and the other is not sealed. -/
structure Crosses (hierarchy : Hierarchy) (source target : Ty) : Prop where
  notBelow : hierarchy.isSubtype source target = false
  notAbove : hierarchy.isSubtype target source = false
  room : (hierarchy.isInterface source = true ∧ hierarchy.isSealed target = false) ∨
    (hierarchy.isInterface target = true ∧ hierarchy.isSealed source = false)

theorem below_or_crosses_of_tested {hierarchy : Hierarchy} {source target : Ty}
    (tested : hierarchy.classify source target = .tested) :
    hierarchy.isSubtype target source = true ∨ hierarchy.Crosses source target := by
  unfold classify at tested
  split at tested
  · contradiction
  · rename_i notBelow
    split at tested
    · rename_i below
      exact Or.inl below
    · rename_i notAbove
      split at tested
      · rename_i room
        refine Or.inr ⟨by simpa using notBelow, by simpa using notAbove, ?_⟩
        simpa only [Bool.or_eq_true, Bool.and_eq_true, Bool.not_eq_true'] using room
      · contradiction

theorem isSubtype_self (hierarchy : Hierarchy) (type : Ty) : hierarchy.isSubtype type type = true :=
  isSubtype_iff.mpr .refl

end Hierarchy

namespace DecisionGraph

variable {graph : DecisionGraph} {problem : MergeProblem} {arms : List Arm} {id : NodeId}
  {facts : Facts} {temp : Temp} {fact : Fact}

/-- At a node with facts, the type of a value is the static one, or one that the
static type leaves open and that every way to the node has confirmed. -/
theorem BuiltForArms.type_of_stateAt? (builtFor : graph.BuiltForArms problem arms)
    (state : (graph.flow problem.types).stateAt? id = some facts)
    (known : facts.get? temp = some fact) :
    fact.type = graph.table.typeOf temp ∨
      (problem.types.classify (graph.table.typeOf temp) fact.type = .tested ∧
        ∀ turns, graph.Way turns id → .test ⟨temp, .ofType fact.type⟩ true ∈ turns) := by
  have lawful : graph.table.Lawful := builtFor.sameTable ▸ builtFor.lawful
  have feasible := feasible_of_stateAt? (acyclic_of_descending builtFor.descending) state
  obtain ⟨merged, sameState, isJoin⟩ := builtFor.isJoin_flow problem.types feasible
  obtain rfl := Option.some.inj (state.symm.trans sameState)
  have joined := isJoin.present temp fact known
  rcases joined.type with common | ⟨isStatic, _⟩
  · by_cases isStatic : fact.type = graph.table.typeOf temp
    · exact Or.inl isStatic
    have confirmed : ∀ turns, graph.Way turns id →
        .test ⟨temp, .ofType fact.type⟩ true ∈ turns := by
      intro turns way
      have filled : (Facts.along problem.types graph.table turns).get? temp ≠ none := fun absent => by
        rw [(isJoin.absent temp).mpr ⟨_, ⟨turns, way, rfl⟩, absent⟩] at known
        contradiction
      obtain ⟨told, found⟩ := Option.ne_none_iff_exists'.mp filled
      have sameType := common told ⟨_, ⟨turns, way, rfl⟩, found⟩
      rw [← sameType] at isStatic ⊢
      exact (Facts.type_along lawful found).resolve_left isStatic
    obtain ⟨turns, way⟩ := feasible_iff.mp feasible
    have isApt := builtFor.apt_of_mem builtFor.apt way.path (confirmed turns way)
    exact Or.inr ⟨isApt.undecided rfl, confirmed⟩
  · exact Or.inl isStatic

end DecisionGraph

/-- In a class hierarchy, the type of a value at a node is below its static type,
or it crosses the static type and every way to the node has confirmed it. -/
theorem Compiled.narrowed_type {hierarchy : Hierarchy} {options : Options} {switch : Switch}
    {compiled : Compiled} (compiles : switch.compile hierarchy.oracle options = .ok compiled)
    {id : NodeId} {facts : Facts} {temp : Temp} {fact : Fact}
    (state : compiled.flow.stateAt? id = some facts) (known : facts.get? temp = some fact) :
    hierarchy.isSubtype fact.type (compiled.graph.table.typeOf temp) = true ∨
      (hierarchy.Crosses (compiled.graph.table.typeOf temp) fact.type ∧
        ∀ turns, compiled.graph.Way turns id →
          .test ⟨temp, .ofType fact.type⟩ true ∈ turns) := by
  obtain ⟨built, _, isFlow⟩ := Switch.compile_eq_ok compiles
  obtain ⟨problem, sameTypes, builtFor⟩ := DecisionGraph.exists_builtForArms built
  rw [isFlow, ← sameTypes] at state
  rcases builtFor.type_of_stateAt? state known with isStatic | ⟨tested, confirmed⟩
  · rw [isStatic]
    exact Or.inl (hierarchy.isSubtype_self _)
  · rw [sameTypes] at tested
    exact (Hierarchy.below_or_crosses_of_tested tested).imp_right fun crosses =>
      ⟨crosses, confirmed⟩

/-- Machines, of which some may be logged. -/
def machines : Hierarchy :=
  ((Hierarchy.empty.addClass "Machine" none).2.addInterface "Logged").2

theorem wellFormed_machines : machines.WellFormed :=
  .of_descending (.addInterface "Logged" (.addClass "Machine" none .empty)) (by decide) (by decide)

/-- A machine that is logged, or any other one. -/
def loggedMachine : Switch where
  input := ⟨1⟩
  arms := [⟨.typed ⟨1⟩ ⟨2⟩ (some ⟨5⟩), none, ⟨0⟩⟩, ⟨.discard ⟨1⟩, none, ⟨1⟩⟩]

def loggedMachineGraph : DecisionGraph where
  nodes := #[.success 0 ⟨0⟩, .bind 0 ⟨0⟩ [⟨⟨5⟩, ⟨1⟩⟩] none ⟨0⟩ none, .access ⟨0⟩ ⟨1⟩,
    .success 1 ⟨1⟩, .test ⟨.root, .ofType ⟨2⟩⟩ ⟨2⟩ ⟨3⟩, .test ⟨.root, .nonNull⟩ ⟨4⟩ ⟨3⟩]
  root := ⟨5⟩
  table := ⟨[⟨⟨1⟩, none, 0⟩, ⟨⟨2⟩, some ⟨0⟩, 0⟩], [⟨.root, .cast ⟨2⟩⟩]⟩
  armCount := 2

/-- Once a machine is known to be logged, it is not said to be a machine any more. -/
theorem exists_compiled_loggedMachine :
    ∃ compiled, loggedMachine.compile machines.oracle {} = .ok compiled ∧
      compiled.graph = loggedMachineGraph ∧
      compiled.flow.stateAt? ⟨2⟩ = some ⟨#[some ⟨.notNull, ⟨2⟩⟩, none]⟩ := by
  have built : DecisionGraph.ofArms machines.oracle {} loggedMachine.input loggedMachine.arms =
      .ok loggedMachineGraph := by
    cbv
  obtain ⟨compiled, compiles, isGraph, isFlow⟩ := Switch.exists_compiled built
  refine ⟨compiled, compiles, isGraph, ?_⟩
  rw [isFlow]
  cbv

theorem narrowed_type_loggedMachine :
    ∃ compiled, loggedMachine.compile machines.oracle {} = .ok compiled ∧
      machines.Crosses ⟨1⟩ ⟨2⟩ ∧ ∀ turns, compiled.graph.Way turns ⟨2⟩ →
        .test ⟨.root, .ofType ⟨2⟩⟩ true ∈ turns := by
  obtain ⟨compiled, compiles, isGraph, state⟩ := exists_compiled_loggedMachine
  have known : (⟨#[some ⟨.notNull, ⟨2⟩⟩, none]⟩ : Facts).get? .root = some ⟨.notNull, ⟨2⟩⟩ := rfl
  have static : compiled.graph.table.typeOf .root = ⟨1⟩ := by
    rw [isGraph]
    rfl
  have apart : machines.isSubtype ⟨2⟩ ⟨1⟩ = false := by cbv
  rcases Compiled.narrowed_type compiles state known with below | ⟨crosses, confirmed⟩
  · rw [static, apart] at below
    contradiction
  · exact ⟨compiled, compiles, static ▸ crosses, confirmed⟩

/-- A type test can lose the static type. -/
theorem not_isSubtype_loggedMachine :
    machines.WellFormed ∧ ∃ compiled, loggedMachine.compile machines.oracle {} = .ok compiled ∧
      ¬ ∀ id facts temp fact, compiled.flow.stateAt? id = some facts →
        facts.get? temp = some fact →
          machines.isSubtype fact.type (compiled.graph.table.typeOf temp) = true := by
  obtain ⟨compiled, compiles, isGraph, state⟩ := exists_compiled_loggedMachine
  refine ⟨wellFormed_machines, compiled, compiles, fun always => ?_⟩
  have below := always ⟨2⟩ _ .root ⟨.notNull, ⟨2⟩⟩ state rfl
  have apart : machines.isSubtype ⟨2⟩ ⟨1⟩ = false := by cbv
  rw [isGraph] at below
  exact absurd (below.symm.trans apart) (by decide)

end MatchCompiler
