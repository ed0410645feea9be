import MatchCompiler.Implication
import MatchCompiler.Proofs.Value

/-!
# Implied answers are right

An answer that one outcome settles is the answer that the value itself gives,
provided the type oracle tells the truth about the values at hand.
-/

set_option autoImplicit false

namespace MatchCompiler

/-- A conversion that always succeeds does so on every instance, one that never
succeeds on none. -/
structure TypeOracle.SoundFor (types : TypeOracle) (typing : Typing) : Prop where
  always : ∀ (source target : Ty) (value : Value), types.classify source target = .always →
    typing.isInstance value source = true → typing.isInstance value target = true
  never : ∀ (source target : Ty) (value : Value), types.classify source target = .never →
    typing.isInstance value source = true → typing.isInstance value target = false

theorem Typing.isNull_of_isInstance {typing : Typing} {value : Value} {type : Ty}
    (isInstance : typing.isInstance value type = true) : value.isNull = false := by
  simp only [Typing.isInstance, Bool.and_eq_true, Bool.not_eq_true'] at isInstance
  exact isInstance.1

theorem Typing.isInstance_of_isNull {typing : Typing} {value : Value} (type : Ty)
    (isNull : value.isNull = true) : typing.isInstance value type = false := by
  simp [Typing.isInstance, isNull]

/-- A value that static types keep from being null is a Boolean where it is
compared with one. -/
def Test.Suits (types : TypeOracle) (table : AccessTable) (asked : Test) (value : Value) : Prop :=
  types.canBeNull (table.typeOf asked.subject) = false →
    ∀ b, asked.predicate = .equals (.bool b) → ∃ c, value = .bool c

namespace Predicate

variable {types : TypeOracle} {typing : Typing} {value : Value}

theorem isNull_of_nullness {known : Predicate} {outcome isNull : Bool}
    (came : known.holds typing value = outcome) (told : known.nullness outcome = some isNull) :
    value.isNull = isNull := by
  cases known with
  | nonNull =>
      simp only [nullness, Option.some.injEq] at told
      simp only [holds] at came
      rw [← told, ← came, Bool.not_not]
  | isNull =>
      simp only [nullness, Option.some.injEq] at told
      rw [← told, ← came]
      rfl
  | ofType type =>
      cases outcome with
      | false => simp [nullness] at told
      | true =>
          simp only [nullness, Option.some.injEq] at told
          rw [← told]
          exact Typing.isNull_of_isInstance came
  | equals constant =>
      cases outcome with
      | true =>
          simp only [nullness, Option.some.injEq] at told
          rw [← told]
          exact Value.isNull_of_equals came
      | false =>
          cases constant <;> simp only [nullness, Option.some.injEq, reduceCtorEq] at told
          subst told
          cases value <;> simp_all [holds, Value.equals, Value.isNull]
  | never => cases outcome <;> simp [nullness] at told

theorem holds_of_onNull {asked : Predicate} {answer : Bool} (isNull : value.isNull = true)
    (told : asked.onNull = some answer) : asked.holds typing value = answer := by
  cases asked with
  | nonNull =>
      obtain rfl := Option.some.inj told
      simp [holds, isNull]
  | isNull =>
      obtain rfl := Option.some.inj told
      exact isNull
  | ofType type =>
      obtain rfl := Option.some.inj told
      exact Typing.isInstance_of_isNull type isNull
  | equals constant =>
      obtain rfl := Option.some.inj told
      cases value <;> cases constant <;> simp_all [holds, Value.equals, Value.isNull, Const.isNull]
  | never => simp [onNull] at told

theorem holds_of_onNonNull {asked : Predicate} {answer : Bool} (isNull : value.isNull = false)
    (told : asked.onNonNull = some answer) : asked.holds typing value = answer := by
  cases asked with
  | nonNull =>
      obtain rfl := Option.some.inj told
      simp [holds, isNull]
  | isNull =>
      obtain rfl := Option.some.inj told
      exact isNull
  | ofType type => simp [onNonNull] at told
  | equals constant =>
      cases constant <;> simp only [onNonNull, Option.some.injEq, reduceCtorEq] at told
      subst told
      cases value <;> simp_all [holds, Value.equals, Value.isNull]
  | never => simp [onNonNull] at told

theorem holds_of_related (sound : types.SoundFor typing) {nonNullable : Bool}
    {known asked : Predicate} {outcome answer : Bool}
    (booleans : nonNullable = true → ∀ b c, known = .equals (.bool b) → asked = .equals (.bool c) →
      ∃ d, value = .bool d)
    (came : known.holds typing value = outcome)
    (told : related types nonNullable known outcome asked = some answer) :
    asked.holds typing value = answer := by
  unfold related at told
  split at told
  · rename_i knownType askedType
    split at told
    · rename_i classified
      obtain rfl := Option.some.inj told
      exact sound.always knownType askedType value classified came
    · rename_i classified
      obtain rfl := Option.some.inj told
      exact sound.never knownType askedType value classified came
    · contradiction
  · rename_i knownType askedType
    split at told
    · rename_i classified
      obtain rfl := Option.some.inj told
      -- An instance of the smaller type would be one of the larger type.
      cases isInstance : typing.isInstance value askedType with
      | false => exact isInstance
      | true =>
          have larger := sound.always askedType knownType value classified isInstance
          simp only [holds] at came
          rw [larger] at came
          contradiction
    · contradiction
  · exact Value.equals_of_sameValue? came told
  · split at told
    · rename_i b c
      obtain rfl := Option.some.inj told
      obtain ⟨d, rfl⟩ := booleans rfl b c rfl rfl
      revert came
      cases b <;> cases c <;> cases d <;> simp [holds, Value.equals]
    · split at told
      · rename_i same
        obtain rfl := Option.some.inj told
        rw [← Const.eq_of_sameValue? same]
        exact came
      · contradiction
  · contradiction

theorem implied_of_apart (types : TypeOracle) (nonNullable : Bool) {known asked : Const}
    (knownFit : known.isSwitchable = true) (askedFit : asked.isSwitchable = true)
    (apart : known.sameValue? asked = some false) :
    implied types nonNullable (.equals known) true (.equals asked) = some false := by
  have differ : known ≠ asked := by
    rintro rfl
    cases known <;> simp_all [Const.sameValue?, Const.isSwitchable]
  have told : nullness (.equals known) true = some false := by
    cases known <;> first | rfl | contradiction
  have untold : onNonNull (.equals asked) = none := by
    cases asked <;> first | rfl | contradiction
  unfold implied
  rw [if_neg fun same => differ (equals.inj same), told, untold, Option.none_or]
  exact apart

theorem implied_sound (sound : types.SoundFor typing) {nonNullable : Bool}
    {known asked : Predicate} {outcome answer : Bool}
    (booleans : nonNullable = true → ∀ b c, known = .equals (.bool b) → asked = .equals (.bool c) →
      ∃ d, value = .bool d)
    (came : known.holds typing value = outcome)
    (settled : implied types nonNullable known outcome asked = some answer) :
    asked.holds typing value = answer := by
  unfold implied at settled
  split at settled
  · rename_i same
    rw [← same, came]
    exact Option.some.inj settled
  · split at settled
    · rename_i told
      exact holds_of_onNull (isNull_of_nullness came told) settled
    · rename_i told
      rcases Option.or_eq_some_iff.mp settled with direct | ⟨_, indirect⟩
      · exact holds_of_onNonNull (isNull_of_nullness came told) direct
      · exact holds_of_related sound booleans came indirect
    · exact holds_of_related sound booleans came settled

/-- Whatever is known about a value, and whichever tests are compared, an answer
that one outcome settles is the answer of the value. A test settles itself. -/
theorem implied_truthful (sound : types.SoundFor typing) {nonNullable : Bool}
    {known asked : Predicate} {outcome : Bool}
    (booleans : nonNullable = true → (∃ b, known = .equals (.bool b)) →
      (∃ c, asked = .equals (.bool c)) → ∃ d, value = .bool d)
    (came : known.holds typing value = outcome) :
    (∀ answer, implied types nonNullable known outcome asked = some answer →
      asked.holds typing value = answer) ∧
      implied types nonNullable known outcome known = some (known.holds typing value) := by
  refine ⟨fun answer settled => implied_sound sound ?_ came settled, ?_⟩
  · exact fun excluded b c isKnown isAsked => booleans excluded ⟨b, isKnown⟩ ⟨c, isAsked⟩
  · rw [came]
    exact if_pos rfl

end Predicate

/-! ## Types apart from each other -/

/-- Types none of which lies below another, so that a value has its own type only. -/
def TypeOracle.apart : TypeOracle where
  classify source target := if source = target then .always else .never
  canBeNull _ := false

def Typing.apart : Typing where
  typeOf
    | .object type _ _ _ => some type
    | _ => none
  isSubtype sub super := sub == super

theorem TypeOracle.soundFor_apart : TypeOracle.apart.SoundFor Typing.apart where
  always := by
    intro source target value always isInstance
    by_cases same : source = target
    · exact same ▸ isInstance
    · simp [TypeOracle.apart, same] at always
  never := by
    intro source target value never isInstance
    by_cases same : source = target
    · simp [TypeOracle.apart, same] at never
    · unfold Typing.isInstance Typing.apart at isInstance ⊢
      cases value <;> simp_all

/-- Where nothing is null, not to be `true` is to be `false`. -/
theorem Predicate.implied_truthful_complement :
    (Predicate.equals (.bool true)).holds Typing.apart (.bool false) = false ∧
      (Predicate.equals (.bool true)).implied TypeOracle.apart true false (.equals (.bool false)) =
        some true ∧
      (Predicate.equals (.bool false)).holds Typing.apart (.bool false) = true := by
  have came : (Predicate.equals (.bool true)).holds Typing.apart (.bool false) = false := by decide
  have settled : (Predicate.equals (.bool true)).implied TypeOracle.apart true false
      (.equals (.bool false)) = some true := by decide
  exact ⟨came, settled, (Predicate.implied_truthful TypeOracle.soundFor_apart
    (fun _ _ _ => ⟨false, rfl⟩) came).1 true settled⟩

end MatchCompiler
