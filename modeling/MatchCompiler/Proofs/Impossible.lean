import Mathlib
import MatchCompiler.Proofs.Compile
import MatchCompiler.Proofs.Pattern.Nesting
import MatchCompiler.Proofs.Reachability
import MatchCompiler.Proofs.Residual.Course

/-!
# Impossible patterns

A pattern with a part whose type excludes the type that the part asks for leaves
a test that is never true. No outcome of another test tells anything about it,
so an arm that waits for it goes on waiting, on every path but the ones on which
the test has come out true. No other path comes to a node that takes the arm.
-/

set_option autoImplicit false

namespace MatchCompiler

/-! ## What a pattern leaves -/

namespace Pattern

/-- The type that a pattern asks for: a declared one, or that of a constant,
unless it is null. -/
def target? : Pattern → Option Ty
  | .typed _ declared _ => some declared
  | .constant _ value type => if value.isNull then none else some type
  | .compound _ declared _ _ _ => declared
  | _ => none

/-- At some depth, a type is asked for that no value of the examined type has. -/
def Impossible (types : TypeOracle) (pattern : Pattern) : Prop :=
  ∃ part type, pattern.Contains part ∧ part.target? = some type ∧
    types.classify part.input type = .never

variable {types : TypeOracle} {owner : Option Nat} {table : AccessTable} {temp narrowed : Temp}
  {steps : List Step} {fragment : Fragment} {pattern : Pattern} {type : Ty}

theorem never_of_converts {strict : Bool}
    (converts : Converts types strict type table temp steps narrowed)
    (never : types.classify (table.typeOf temp) type = .never) : .test ⟨temp, .never⟩ ∈ steps := by
  unfold Converts at converts
  rw [never] at converts
  obtain ⟨cast, _, rfl⟩ := converts
  exact List.mem_cons_self

theorem never_of_lays (laid : Lays types owner table pattern temp fragment)
    (typed : table.typeOf temp = pattern.input) (asksFor : pattern.target? = some type)
    (never : types.classify pattern.input type = .never) :
    .test ⟨temp, .never⟩ ∈ fragment.steps := by
  rw [← typed] at never
  match pattern with
  | .discard _ | .var _ _ => contradiction
  | .typed _ declared name =>
      obtain rfl := Option.some.inj asksFor
      simp only [Lays] at laid
      obtain ⟨steps, narrowed, converts, rfl⟩ := laid
      simp [never_of_converts converts never]
  | .constant _ value constantType =>
      cases isNull : value.isNull with
      | true => simp [target?, isNull] at asksFor
      | false =>
          obtain rfl : constantType = type := by simpa [target?, isNull] using asksFor
          simp only [Lays, isNull, Bool.false_eq_true, if_false] at laid
          obtain ⟨steps, narrowed, converts, rfl⟩ := laid
          simp [never_of_converts converts never]
  | .compound _ declared positional members name =>
      obtain rfl : declared = some type := asksFor
      obtain ⟨steps, narrowed, inside, enters, subset, _⟩ := exists_of_lays_compound laid
      exact subset (never_of_converts enters never)

theorem Impossible.exists_never (impossible : pattern.Impossible types)
    (laid : Lays types owner table pattern temp fragment)
    (typed : table.typeOf temp = pattern.input) :
    ∃ subject, .test ⟨subject, .never⟩ ∈ fragment.steps := by
  obtain ⟨part, type, contains, asksFor, never⟩ := impossible
  obtain ⟨subject, own, laidPart, typedPart, subset⟩ := laidInside_of_contains contains laid typed
  exact ⟨subject, subset (never_of_lays laidPart typedPart asksFor never)⟩

end Pattern

/-! ## What becomes of it -/

theorem Predicate.eq_never_of_implied {types : TypeOracle} {nonNullable outcome answer : Bool}
    {known : Predicate} (told : known.implied types nonNullable outcome .never = some answer) :
    known = .never ∧ outcome = answer := by
  unfold implied at told
  split at told
  · rename_i same
    exact ⟨same, Option.some.inj told⟩
  · have untold : known.related types nonNullable outcome .never = none := by
      cases known <;> cases outcome <;> rfl
    rw [untold] at told
    split at told <;> simp [onNull, onNonNull] at told

theorem Turn.not_possible_of_settles {problem : MergeProblem} {turn : Turn} {subject : Temp}
    (settled : turn.settles problem (.test ⟨subject, .never⟩) = some true) : ¬ turn.Possible := by
  cases turn with
  | access made => simp [settles] at settled
  | test known outcome =>
      rw [settles] at settled
      obtain ⟨_, ⟨⟩, _, told⟩ := MergeProblem.settled_eq_some settled
      obtain ⟨isNever, rfl⟩ := Predicate.eq_never_of_implied told
      intro possible
      have outcomeFalse := possible isNever
      contradiction
  | bind arm accepted => contradiction

namespace DecisionGraph

variable {graph : DecisionGraph} {problem : MergeProblem} {id : NodeId} {node : Node}

theorem not_feasible_of_never
    (represents : problem.Represents graph.nodes graph.root problem.start)
    {arm : Fin problem.checklists.size} {subject : Temp}
    (never : .test ⟨subject, .never⟩ ∈ (problem.checklist arm).steps)
    (found : graph.node? id = some node) (takes : node.arm? = some arm.val) :
    ¬ graph.Feasible id := by
  rintro ⟨turns, path, possible⟩
  obtain ⟨front, back, own, others, rfl, isState, sameArm⟩ :=
    path.exists_of_arm? represents found takes
  obtain rfl := Fin.ext sameArm
  have first : (⟨own, []⟩ : Pending problem.checklists.size) ∈ problem.start.along problem front := by
    rw [isState]
    exact List.mem_cons_self
  -- nothing is left for the arm, so some turn has found the test to be true
  obtain ⟨before, inStart, rfl, _, done⟩ := Residual.exists_of_mem_along first
  obtain ⟨arm, _, rfl⟩ := List.mem_map.mp inStart
  obtain ⟨turn, inFront, settled⟩ := done _ never List.not_mem_nil
  exact Turn.not_possible_of_settles settled (possible turn (List.mem_append_left _ inFront))

end DecisionGraph

/-- An arm with an impossible pattern is out of reach in the graph of a switch. -/
theorem DecisionGraph.not_feasible_of_impossible {types : TypeOracle} {options : Options}
    {input : Ty} {arms : List Arm} {graph : DecisionGraph}
    (built : DecisionGraph.ofArms types options input arms = .ok graph) {index : Nat} {arm : Arm}
    (isArm : arms[index]? = some arm) (impossible : arm.pattern.Impossible types) :
    graph.Acyclic ∧ index < graph.armCount ∧ ∀ id node, graph.node? id = some node →
      node.arm? = some index → ¬ graph.Feasible id := by
  obtain ⟨table, lists, _, laidOut, made⟩ := DecisionGraph.ofArms_eq_ok built
  obtain ⟨_, _, armCount, descending, unfolds⟩ := DecisionGraph.ofChecklists_eq_ok made
  obtain ⟨checklist, isList, own⟩ := getElem?_of_forall₂ laidOut isArm
  obtain ⟨inside, isOwn⟩ := List.getElem?_eq_some_iff.mp isList
  obtain ⟨owner, lays⟩ := own.lays
  obtain ⟨subject, never⟩ := impossible.exists_never lays own.input
  let problem : MergeProblem := ⟨types, options.selection, table, lists.toArray⟩
  let position : Fin problem.checklists.size := ⟨index, by simpa [problem] using inside⟩
  have waits : .test ⟨subject, .never⟩ ∈ (problem.checklist position).steps := by
    simpa [problem, position, MergeProblem.checklist, isOwn] using never
  exact ⟨acyclic_of_descending descending, armCount ▸ inside, fun id node found takes =>
    not_feasible_of_never (MergeProblem.represents_of_unfolds _ unfolds) waits found takes⟩

/-- A type that is asked for in vain is always noticed. The arm is reported, all
nodes that take it are marked, and no run takes it, whatever the value and
however its types are tested. -/
theorem Compiled.impossible_reported {types : TypeOracle} {options : Options} {switch : Switch}
    {compiled : Compiled} (compiles : switch.compile types options = .ok compiled) {index : Nat}
    {arm : Arm} (isArm : switch.arms[index]? = some arm)
    (impossible : arm.pattern.Impossible types) :
    index ∈ compiled.coverage.unreachableArms ∧
      (∀ id node, compiled.graph.node? id = some node → node.arm? = some index →
        id ∈ compiled.flow.unreachable) ∧
      (∀ isInstance oracle value label bindings,
        (compiled.graph.walkBy isInstance oracle value).result ≠
          .ok (.matched index label bindings)) ∧
      ∀ typing oracle value label bindings,
        (compiled.run typing oracle value).result ≠ .ok (.matched index label bindings) := by
  obtain ⟨built, isCoverage, isFlow⟩ := Switch.compile_eq_ok compiles
  obtain ⟨acyclic, known, infeasible⟩ := DecisionGraph.not_feasible_of_impossible built isArm impossible
  have untaken : ∀ isInstance oracle value label bindings,
      (compiled.graph.walkBy isInstance oracle value).result ≠
        .ok (.matched index label bindings) := by
    intro isInstance oracle value label bindings matched
    obtain ⟨leaf, found, feasible⟩ := DecisionGraph.exists_feasible_of_matched matched
    exact infeasible leaf _ found rfl feasible
  refine ⟨?_, ?_, untaken, ?_⟩
  · rw [isCoverage, DecisionGraph.mem_unreachableArms_iff known]
    exact infeasible
  · intro id node found takes
    rw [isFlow, DecisionGraph.mem_unreachable_flow_iff acyclic types (DecisionGraph.node?_inside found)]
    exact infeasible id node found takes
  · intro typing oracle value label bindings
    unfold Compiled.run
    rw [DecisionGraph.walk_eq_walkBy]
    exact untaken typing.isInstance oracle value label bindings

/-- A point with a number that has to be a point, too. -/
def pointNumber : Pattern :=
  .compound Hierarchy.object (some ⟨2⟩) none
    [(.field ⟨1⟩, .var ⟨3⟩ ⟨2⟩), (.field ⟨1⟩, .typed ⟨3⟩ ⟨2⟩ none)] none

theorem impossible_pointNumber : pointNumber.Impossible shapes.oracle :=
  ⟨.typed ⟨3⟩ ⟨2⟩ none, ⟨2⟩, .member (List.mem_cons_of_mem _ List.mem_cons_self) (.self _), rfl,
    by cbv⟩

theorem impossible_reported_pointNumber :
    ∃ compiled, Switch.compile shapes.oracle {}
        ⟨Hierarchy.object, [⟨pointNumber, none, ⟨0⟩⟩, ⟨.discard Hierarchy.object, none, ⟨1⟩⟩]⟩ =
          .ok compiled ∧
      pointNumber.Impossible shapes.oracle ∧ 0 ∈ compiled.coverage.unreachableArms := by
  let switch : Switch :=
    ⟨Hierarchy.object, [⟨pointNumber, none, ⟨0⟩⟩, ⟨.discard Hierarchy.object, none, ⟨1⟩⟩]⟩
  have succeeds : (switch.compile shapes.oracle {}).toOption.isSome = true := by cbv
  cases compiles : switch.compile shapes.oracle {} with
  | error error => simp [compiles, Except.toOption] at succeeds
  | ok compiled =>
      exact ⟨compiled, rfl, impossible_pointNumber,
        (Compiled.impossible_reported compiles rfl impossible_pointNumber).1⟩

end MatchCompiler
