import MatchCompiler.Proofs.ConstantSwitch.Blocks
import MatchCompiler.Proofs.ConstantSwitch.Build

/-!
# Switches over constants

Comparisons of the input with different constants, and a last arm for all else,
become one jump table, or one branch for each constant where that is not enough
for a table. The table leads from each constant to the arm that it stands for.
-/

set_option autoImplicit false

namespace MatchCompiler

/-- With `n` constants, `2 n + 1` nodes are enough whatever the selection, if there are
numbers for so many. The plan has `n + 2` blocks if the constants make a table: the
table and the `n + 1` arms. -/
theorem Switch.compile_ofConstants (hierarchy : Hierarchy) (options : Options) (type : Ty)
    (cases : List (Const × Label)) (default : Label) (notEmpty : cases ≠ [])
    (discrete : ∀ entry ∈ cases, entry.1.isDiscrete = true)
    (distinct : (cases.map (·.1)).Nodup) (roomy : 2 * cases.length + 1 ≤ options.nodeLimit)
    (few : 2 * cases.length + 1 ≤ 2 ^ 32) :
    ∃ compiled, (ofConstants type cases default).compile hierarchy.oracle options = .ok compiled ∧
      (options.minTableEntries ≤ cases.length → compiled.plan.IsOneTable cases default) ∧
      (cases.length < options.minTableEntries →
        compiled.plan.jumpTables = [] ∧ compiled.plan.branches.length = cases.length) := by
  have ladderable : Ladderable cases := ⟨discrete, distinct⟩
  have built := DecisionGraph.ofArms_ofConstants hierarchy options type default ladderable roomy few
  obtain ⟨_, _, _, _, made⟩ := DecisionGraph.ofArms_eq_ok built
  obtain ⟨plan, lowered⟩ :=
    (DecisionGraph.ofChecklists_lowerable made).exists_lower options.minTableEntries
  let graph := DecisionGraph.ladder type cases default
  refine ⟨⟨graph, graph.coverage, graph.flow hierarchy.oracle, plan⟩, ?_, ?_, ?_⟩
  · have isInput : (ofConstants type cases default).input = type := rfl
    unfold compile
    rw [isInput, built]
    simp only [Except.mapError, ok_bind, lowered]
    rfl
  · exact fun long => DecisionGraph.lower_ladder_of_long ladderable notEmpty long lowered
  · exact fun short => DecisionGraph.lower_ladder_of_short ladderable short lowered

/-- A number, a character and a string. -/
def mixedCases : List (Const × Label) :=
  [(.int 7, ⟨4⟩), (.char 'a', ⟨4⟩), (.str ⟨7⟩, ⟨1⟩)]

/-- Three constants are just enough for a table. -/
theorem compile_mixedCases :
    (∃ compiled, (Switch.ofConstants Hierarchy.object mixedCases ⟨0⟩).compile
        Hierarchy.empty.oracle { nodeLimit := 7 } = .ok compiled ∧
          compiled.plan.IsOneTable mixedCases ⟨0⟩) ∧
      ∃ compiled, (Switch.ofConstants Hierarchy.object mixedCases ⟨0⟩).compile
        Hierarchy.empty.oracle { minTableEntries := 4, sharing := .perArm } = .ok compiled ∧
          compiled.plan.jumpTables = [] ∧ compiled.plan.branches.length = 3 := by
  constructor
  · obtain ⟨compiled, compiles, table, _⟩ := Switch.compile_ofConstants .empty { nodeLimit := 7 }
      Hierarchy.object mixedCases ⟨0⟩ (by decide) (by decide) (by decide) (by decide) (by decide)
    exact ⟨compiled, compiles, table (by decide)⟩
  · obtain ⟨compiled, compiles, _, branches⟩ := Switch.compile_ofConstants .empty
      { minTableEntries := 4, sharing := .perArm } Hierarchy.object mixedCases ⟨0⟩ (by decide)
      (by decide) (by decide) (by decide) (by decide)
    exact ⟨compiled, compiles, branches (by decide)⟩

end MatchCompiler
