import MatchCompiler.Value

/-!
# Values and constants

Where two constants are known to be the same or to differ, a value that equals
the first one equals the second one or does not.
-/

set_option autoImplicit false

namespace MatchCompiler

namespace Binary64

/-- Numbers that are not both zero are equal only if their bits are. -/
theorem numEq_of_numEq {a x y : Binary64} (equal : a.numEq x = true) (number : y.isNaN = false)
    (notZeros : (x.isZero && y.isZero) = false) : a.numEq y = (x == y) := by
  simp only [numEq, Bool.and_eq_true, Bool.not_eq_true', Bool.or_eq_true, beq_iff_eq] at equal
  obtain ⟨⟨aNumber, xNumber⟩, same | ⟨aZero, xZero⟩⟩ := equal
  · subst same
    simp [numEq, aNumber, number, notZeros]
  · have yNotZero : y.isZero = false := by simpa [xZero] using notZeros
    have apart : ∀ z : Binary64, z.isZero = true → (z == y) = false := fun z zero =>
      beq_eq_false_iff_ne.mpr fun same => by rw [same, yNotZero] at zero; contradiction
    simp [numEq, yNotZero, apart a aZero, apart x xZero]

end Binary64

theorem Const.eq_of_sameValue? {known asked : Const} (same : known.sameValue? asked = some true) :
    known = asked := by
  unfold sameValue? at same
  split at same
  · split at same
    · contradiction
    · rw [beq_iff_eq.mp (Option.some.inj same)]
  · exact beq_iff_eq.mp (Option.some.inj same)

theorem Const.ne_of_sameValue? {known asked : Const} (apart : known.sameValue? asked = some false) :
    known ≠ asked := by
  rintro rfl
  unfold sameValue? at apart
  split at apart
  · split at apart <;> simp at apart
  · simp at apart

namespace Value

theorem equals_of_sameValue? {value : Value} {known asked : Const} {same : Bool}
    (equal : value.equals known = true) (decided : known.sameValue? asked = some same) :
    value.equals asked = same := by
  cases known <;> cases asked
  case float.float x y =>
      simp only [Const.sameValue?] at decided
      split at decided
      · contradiction
      · rename_i decidable
        simp only [Bool.not_eq_true, Bool.or_eq_false_iff] at decidable
        obtain ⟨⟨xNumber, yNumber⟩, notZeros⟩ := decidable
        obtain rfl := Option.some.inj decided
        cases value <;> simp only [equals, Bool.false_eq_true] at equal
        rename_i a
        have numbers : a.numEq x = true := by simpa [xNumber] using equal
        simp [equals, Binary64.numEq_of_numEq numbers yNumber notZeros, yNumber]
  all_goals
    obtain rfl := Option.some.inj decided
    rw [Bool.eq_iff_iff]
    cases value <;> simp_all [equals]

theorem isNull_of_equals {value : Value} {constant : Const} (equal : value.equals constant = true) :
    value.isNull = constant.isNull := by
  cases value <;> cases constant <;> simp_all [equals, isNull, Const.isNull]

end Value

end MatchCompiler
