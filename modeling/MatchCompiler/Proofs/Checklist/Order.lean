import MatchCompiler.Proofs.Checklist.Requests
import MatchCompiler.Proofs.Pattern.Binders

/-!
# Checklists are in order

Whatever was asked for before, the checklist of an arm can be carried out from
its first step to its last one: each step has behind it all that it relies on. It
binds what the pattern binds.
-/

set_option autoImplicit false

namespace MatchCompiler

namespace Step

/-- A value that may be null by its static type is tested before anything but a
cast is done to it, unless a cast let it through. -/
def NullChecked (types : TypeOracle) (table : AccessTable) (past : List Step) (step : Step) : Prop :=
  ∀ made entry, step = .access made → table.access? made = some entry →
    (∀ type, entry.kind ≠ .cast type) → types.canBeNull (table.typeOf entry.input) = true →
    ¬table.IsCast entry.input → .test ⟨entry.input, .nonNull⟩ ∈ past

/-- A step with all that it relies on behind it. -/
structure InOrder (types : TypeOracle) (table : AccessTable) (past : List Step) (step : Step) :
    Prop where
  known : ∀ made, step = .access made → (table.access? made).isSome
  supplied : Supplied table past step
  typed : CastGuarded table past step
  checked : NullChecked types table past step
  measured : LengthGuarded table past step

variable {types : TypeOracle} {table : AccessTable} {past : List Step} {step : Step} {temp : Temp}

/-- Where a value may be null by its type and does not come from a cast, only a
null test can vouch for it. -/
theorem Vouched.tested (vouched : Vouched types table past temp)
    (nullable : types.canBeNull (table.typeOf temp) = true) (notCast : ¬table.IsCast temp) :
    .test ⟨temp, .nonNull⟩ ∈ past := by
  rcases vouched with excluded | tested | ⟨cast, entry, type, _, known, isCast, isOutput⟩
  · rw [nullable] at excluded
    contradiction
  · exact tested
  · exact absurd ((AccessTable.isCast_iff_of_output known isOutput).mpr ⟨type, isCast⟩) notCast

theorem Prepared.inOrder (prepared : Prepared types table past step) :
    InOrder types table past step where
  known := by
    intro made isAccess
    obtain ⟨entry, known, _⟩ := prepared.vouched made isAccess
    rw [known]
    rfl
  supplied := prepared.supplied
  typed := prepared.guarded
  checked := by
    intro made entry isAccess known otherKind nullable notCast
    obtain ⟨same, sameKnown, vouched⟩ := prepared.vouched made isAccess
    obtain rfl := Option.some.inj (known.symm.trans sameKnown)
    rcases vouched with vouched | ⟨⟨type, isCast⟩, _⟩
    · exact vouched.tested nullable notCast
    · exact absurd isCast (otherKind type)
  measured := prepared.measured

end Step

/-- A checklist that can be carried out step by step, and whose variables are then
bound. -/
structure Checklist.Orderly (types : TypeOracle) (table : AccessTable) (checklist : Checklist) :
    Prop where
  steps : ∀ front step back, checklist.steps = front ++ step :: back →
    step.InOrder types table front
  bound : ∀ binding ∈ checklist.bindings, Step.Provides table checklist.steps binding.temp

theorem Arm.LaidOut.orderly {types : TypeOracle} {table : AccessTable} {arm : Arm}
    {checklist : Checklist} (laidOut : arm.LaidOut types table checklist) :
    checklist.Orderly types table where
  steps := fun front step back split => (laidOut.sequenced.steps front step back split).inOrder
  bound := laidOut.sequenced.bound

/-- Behind any requests, an arm that is laid out gets a checklist in order, which
binds the variables of its pattern in their order. -/
theorem Arm.checklist_orderly {types : TypeOracle} {sharing : Sharing} {index : Nat} {arm : Arm}
    {input : Ty} {earlier : List Request} {checklist : Checklist} {after : AccessTable}
    (laid : arm.checklist types sharing index ((AccessTable.ofInput input).afterRequests earlier) =
      .ok (checklist, after)) :
    checklist.Orderly types after ∧
      checklist.bindings.map Binding.name = arm.pattern.boundNames := by
  have served := AccessTable.served_afterRequests input earlier
  have extended := Arm.checklist_extends served.root laid
  have laidOut := extended.laidOut after (.refl after)
  exact ⟨laidOut.orderly, laidOut.map_name_bindings (extended.lawful served.lawful).rooted⟩

/-- A point with two elements, one of which is a point again. -/
def pointOfPoints : Arm where
  pattern := .compound Hierarchy.object (some ⟨2⟩)
    (some (.indexed (.property ⟨5⟩) ⟨3⟩,
      [.var ⟨3⟩ ⟨1⟩, .compound ⟨1⟩ (some ⟨2⟩) (some (.method ⟨0⟩, [.var ⟨3⟩ ⟨2⟩])) [] (some ⟨3⟩)]))
    [(.field ⟨6⟩, .typed Hierarchy.object ⟨3⟩ (some ⟨4⟩))] (some ⟨5⟩)
  guard := none
  label := ⟨0⟩

theorem checklist_orderly_pointOfPoints :
    ∃ checklist after, pointOfPoints.checklist shapes.oracle .perArm 4
        ((AccessTable.ofInput Hierarchy.object).afterRequests [shapeRequest pointArm]) =
          .ok (checklist, after) ∧
      checklist.Orderly shapes.oracle after ∧
      checklist.bindings.map Binding.name = [⟨1⟩, ⟨2⟩, ⟨3⟩, ⟨4⟩, ⟨5⟩] := by
  have succeeds : (pointOfPoints.checklist shapes.oracle .perArm 4
      ((AccessTable.ofInput Hierarchy.object).afterRequests
        [shapeRequest pointArm])).toOption.isSome = true := by decide
  cases laid : pointOfPoints.checklist shapes.oracle .perArm 4
      ((AccessTable.ofInput Hierarchy.object).afterRequests [shapeRequest pointArm]) with
  | error error => simp [laid, Except.toOption] at succeeds
  | ok laidOut =>
      obtain ⟨orderly, names⟩ := Arm.checklist_orderly laid
      exact ⟨laidOut.1, laidOut.2, rfl, orderly, names⟩

end MatchCompiler
