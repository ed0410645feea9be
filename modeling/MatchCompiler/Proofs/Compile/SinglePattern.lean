import MatchCompiler.Proofs.Checklist.Order
import MatchCompiler.Proofs.Compile.Outcome
import MatchCompiler.Proofs.DecisionGraph.StraightLine

/-!
# Matches of a single pattern

A pattern by itself is compiled in linear size: as many nodes as its checklist has
steps, and three more at most. So there is a limit on nodes, read off the checklist,
under which its compilation cannot fail as long as its nodes can be numbered.
-/

set_option autoImplicit false

namespace MatchCompiler

/-- A pattern by itself has a checklist if and only if its parts can be counted. It is
compiled to a straight graph along the checklist wherever three nodes more than there
are steps are allowed, and can be numbered with 32 bits. -/
theorem Pattern.compile_straight (types : TypeOracle) (options : Options) (pattern : Pattern) :
    ((∃ laid, Arm.checklist types options.sharing 0 ⟨pattern, none, matchLabel⟩
        (.ofInput pattern.input) = .ok laid) ↔ pattern.Countable) ∧
      ∀ checklist table,
        Arm.checklist types options.sharing 0 ⟨pattern, none, matchLabel⟩ (.ofInput pattern.input) =
          .ok (checklist, table) →
        checklist.steps.length + 3 ≤ options.nodeLimit → checklist.steps.length + 3 ≤ 2 ^ 32 →
          ∃ compiled, pattern.compile types options = .ok compiled ∧
            compiled.graph.Straight checklist.steps := by
  have found : (AccessTable.ofInput pattern.input).temp? .root = some ⟨pattern.input, none, 0⟩ := rfl
  constructor
  · constructor
    · rintro ⟨⟨checklist, table⟩, laid⟩
      obtain ⟨_, owner, fragment, _, flattened, _⟩ := Arm.checklist_eq_ok.mp laid
      exact (flatten_succeeds_iff types owner found).mp ⟨fragment, congrArg Prod.fst flattened⟩
    · intro countable
      have first : 0 < 2 ^ 32 := by decide
      obtain ⟨checklist, table, laid, _⟩ : ∃ checklist table,
          Arm.checklist types options.sharing 0 ⟨pattern, none, matchLabel⟩ (.ofInput pattern.input) =
            .ok (checklist, table) ∧ checklist.index = 0 :=
        Arm.exists_checklist types options.sharing found rfl countable first
      exact ⟨(checklist, table), laid⟩
  · intro checklist table laid roomy few
    obtain ⟨isFirst, unguarded⟩ : checklist.index = 0 ∧ checklist.guard = none := by
      obtain ⟨_, _, _, _, _, rfl⟩ := Arm.checklist_eq_ok.mp laid
      exact ⟨rfl, rfl⟩
    obtain ⟨graph, made, straight⟩ :=
      DecisionGraph.exists_straight types options table isFirst unguarded roomy few
    have built : DecisionGraph.ofArms types options pattern.toSwitch.input pattern.toSwitch.arms =
        .ok graph := by
      unfold DecisionGraph.ofArms Pattern.toSwitch
      simp only [checklists, laid, ok_bind]
      exact made
    obtain ⟨compiled, compiles, isGraph, _⟩ := Switch.exists_compiled built
    refine ⟨compiled, compiles, ?_⟩
    rw [isGraph]
    exact straight

/-- Fifteen steps, and a limit of eighteen nodes. -/
theorem compile_straight_pointOfPoints :
    ∃ checklist table compiled,
      Arm.checklist shapes.oracle .shared 0 ⟨pointOfPoints.pattern, none, Pattern.matchLabel⟩
          (.ofInput Hierarchy.object) = .ok (checklist, table) ∧
        checklist.steps.length = 15 ∧
        pointOfPoints.pattern.compile shapes.oracle { nodeLimit := 18 } = .ok compiled ∧
        compiled.graph.Straight checklist.steps := by
  obtain ⟨laysOut, straight⟩ :=
    Pattern.compile_straight shapes.oracle { nodeLimit := 18 } pointOfPoints.pattern
  have counted : (Arm.checklist shapes.oracle .shared 0
      ⟨pointOfPoints.pattern, none, Pattern.matchLabel⟩ (.ofInput Hierarchy.object)).map
        (fun result => result.1.steps.length) = .ok 15 := by
    decide
  obtain ⟨⟨checklist, table⟩, laid⟩ :=
    laysOut.mpr (pointOfPoints.pattern.countable_of_size_lt (by decide))
  have isLaid : Arm.checklist shapes.oracle .shared 0
      ⟨pointOfPoints.pattern, none, Pattern.matchLabel⟩ (.ofInput Hierarchy.object) =
        .ok (checklist, table) := laid
  rw [isLaid] at counted
  have length : checklist.steps.length = 15 := Except.ok.inj counted
  obtain ⟨compiled, compiles, isStraight⟩ :=
    straight checklist table laid (by rw [length]) (by rw [length]; decide)
  exact ⟨checklist, table, compiled, isLaid, length, compiles, isStraight⟩

end MatchCompiler
