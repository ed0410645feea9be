/-!
# Marks of a search

One bit per number, set once the number was met. Every mark that is set is one
less to set.
-/

set_option autoImplicit false

namespace MatchCompiler

namespace Marks

theorem getElem?_mark {marks : Array Bool} {number : Nat} (inside : number < marks.size)
    (other : Nat) :
    (marks.setIfInBounds number true)[other]? = some true ↔
      marks[other]? = some true ∨ other = number := by
  by_cases same : other = number
  · subst same
    simp [inside]
  · simp [Array.getElem?_setIfInBounds_ne (Ne.symm same), same]

theorem getElem?_mark_of_lt {marks : Array Bool} {number other : Nat} (inside : other < marks.size) :
    (marks.setIfInBounds number true)[other]? = some true ↔
      marks[other]? = some true ∨ other = number := by
  by_cases same : number = other
  · subst same
    simp [inside]
  · simp [Array.getElem?_setIfInBounds_ne same, Ne.symm same]

theorem count_mark {marks : Array Bool} {number : Nat} (unset : marks[number]? = some false) :
    (marks.setIfInBounds number true).count false + 1 = marks.count false := by
  obtain ⟨inside, isFalse⟩ := Array.getElem?_eq_some_iff.mp unset
  have positive : 0 < marks.count false :=
    Array.count_pos_iff.mpr (isFalse ▸ Array.getElem_mem inside)
  simp only [Array.setIfInBounds, inside, dite_true]
  rw [Array.count_set]
  simp [isFalse]
  omega

theorem set_of_count_eq_zero {marks : Array Bool} (allSet : marks.count false = 0) {number : Nat}
    (inside : number < marks.size) : marks[number]? = some true := by
  rw [Array.getElem?_eq_getElem inside]
  cases unset : marks[number] with
  | true => rfl
  | false =>
      have positive : 0 < marks.count false :=
        Array.count_pos_iff.mpr (unset ▸ Array.getElem_mem inside)
      omega

end Marks

end MatchCompiler
