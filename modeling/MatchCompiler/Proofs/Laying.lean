import MatchCompiler.Checklist
import MatchCompiler.Proofs.AccessTable

/-!
# Layouts that can fail

A layout extends its table also where it fails. Whether it fails is a matter of
what is laid out, not of the table, and what a result looks like is said for
every table that the one at hand may grow to.
-/

set_option autoImplicit false

namespace MatchCompiler

namespace Laying

variable {α β : Type} {made : Laying α} {next : α → Laying β} {table after : AccessTable}
  {value : α}

@[simp] theorem on_pure (value : α) (table : AccessTable) :
    (pure value : Laying α).on table = (.ok value, table) := rfl

@[simp] theorem on_throw (error : BuildError) (table : AccessTable) :
    (throw error : Laying α).on table = (.error error, table) := rfl

@[simp] theorem on_get (table : AccessTable) : (get : Laying AccessTable).on table = (.ok table, table) :=
  rfl

@[simp] theorem on_modifyGet (change : AccessTable → α × AccessTable) (table : AccessTable) :
    (modifyGet change : Laying α).on table = (.ok (change table).1, (change table).2) := rfl

@[simp] theorem on_liftExcept (answer : Except BuildError α) (table : AccessTable) :
    (liftExcept answer : Laying α).on table = (answer, table) := by
  cases answer <;> rfl

theorem on_bind (made : Laying α) (next : α → Laying β) (table : AccessTable) :
    (made >>= next).on table =
      match made.on table with
      | (.ok value, after) => (next value).on after
      | (.error error, after) => (.error error, after) := by
  change (ExceptT.bindCont next (made.on table).1) (made.on table).2 = _
  rcases made.on table with ⟨answer, after⟩
  cases answer <;> rfl

theorem on_bind_of_ok (laid : made.on table = (.ok value, after)) :
    (made >>= next).on table = (next value).on after := by
  rw [on_bind, laid]

theorem on_bind_of_error {error : BuildError} (laid : made.on table = (.error error, after)) :
    (made >>= next).on table = (.error error, after) := by
  rw [on_bind, laid]

theorem on_count {number : Nat} (few : number ≤ 0xffffffff) (table : AccessTable) :
    (count number).on table = (.ok number, table) := by
  rw [count, if_pos few, on_pure]

theorem on_lengthOf {number : Nat} (few : number ≤ 0x7fffffffffffffff) (table : AccessTable) :
    (lengthOf number).on table = (.ok ↑number, table) := by
  rw [lengthOf, if_pos few, on_pure]

theorem onto_eq_ok : made.onto table = .ok (value, after) ↔ made.on table = (.ok value, after) := by
  unfold onto
  rcases made.on table with ⟨answer, last⟩
  cases answer <;> simp

theorem onto_eq_error {error : BuildError} :
    made.onto table = .error error ↔ (made.on table).1 = .error error := by
  unfold onto
  rcases made.on table with ⟨answer, last⟩
  cases answer <;> simp

/-- A layout comes to a result if and only if what it lays out `fits`, and leaves a
table that extends the one before. The result `lays` in every table behind. -/
structure Yields (made : Laying α) (table : AccessTable) (fits : Prop)
    (lays : AccessTable → α → Prop) : Prop where
  extended : table.Extends (made.on table).2 fun final =>
    ∀ value, (made.on table).1 = .ok value → lays final value
  succeeds : (∃ value, (made.on table).1 = .ok value) ↔ fits

namespace Yields

variable {fits front : Prop} {lays known : AccessTable → α → Prop} {goal : AccessTable → β → Prop}

theorem pure (holds : fits) (always : ∀ final, table.Grows final → lays final value) :
    (Pure.pure value : Laying α).Yields table fits lays where
  extended := .refl fun final grows _ same => Except.ok.inj same ▸ always final grows
  succeeds := iff_of_true ⟨value, rfl⟩ holds

theorem throw {error : BuildError} (refused : ¬ fits) :
    (MonadExcept.throw error : Laying α).Yields table fits lays where
  extended := .refl fun _ _ _ same => nomatch same
  succeeds := iff_of_false nofun refused

/-- What the first layout has laid is known of the table that the second one starts
from, and of all tables behind. -/
theorem bind (first : made.Yields table front known) (needs : fits → front)
    (behind : ∀ value middle, table.Grows middle → known middle value → front →
      (next value).Yields middle fits fun final result => known final value → goal final result) :
    (made >>= next).Yields table fits goal := by
  rcases laid : made.on table with ⟨answer, middle⟩
  have extended := first.extended
  have succeeds := first.succeeds
  rw [laid] at extended succeeds
  cases answer with
  | error error =>
      have refused : ¬ fits := fun holds => by
        obtain ⟨_, isValue⟩ := succeeds.mpr (needs holds)
        contradiction
      constructor
      · rw [on_bind_of_error laid]
        exact extended.imp fun _ _ _ _ isValue => nomatch isValue
      · rw [on_bind_of_error laid]
        exact iff_of_false nofun refused
  | ok value =>
      have later := behind value middle extended.grows
        (extended.laidOut middle (.refl middle) value rfl) (succeeds.mp ⟨value, rfl⟩)
      constructor
      · rw [on_bind_of_ok laid]
        exact (extended.trans later.extended).imp fun final _ ⟨isKnown, laidOut⟩ result isResult =>
          laidOut result isResult (isKnown value rfl)
      · rw [on_bind_of_ok laid]
        exact later.succeeds

theorem get : (MonadState.get : Laying AccessTable).Yields table True fun _ value => table = value where
  extended := .refl fun _ _ _ same => Except.ok.inj same
  succeeds := iff_of_true ⟨table, rfl⟩ trivial

theorem modifyGet {change : AccessTable → α × AccessTable} {known : α → AccessTable → Prop}
    (extended : table.Extends (change table).2 (known (change table).1)) :
    (MonadState.modifyGet change : Laying α).Yields table True fun final value => known value final where
  extended := extended.imp fun _ _ laid _ same => Except.ok.inj same ▸ laid
  succeeds := iff_of_true ⟨_, rfl⟩ trivial

theorem count {number : Nat} :
    (Laying.count number).Yields table (number ≤ 0xffffffff) fun _ value => number = value := by
  unfold Laying.count
  split
  · rename_i few
    exact .pure few fun _ _ => rfl
  · rename_i many
    exact .throw many

theorem lengthOf {number : Nat} :
    (Laying.lengthOf number).Yields table (number ≤ 0x7fffffffffffffff) fun _ value =>
      number = value := by
  unfold Laying.lengthOf
  split
  · rename_i few
    exact .pure few fun _ _ => rfl
  · rename_i many
    exact .throw many

theorem liftExcept {answer : Except BuildError α} :
    (liftExcept answer : Laying α).Yields table (∃ value, answer = .ok value) fun _ value =>
      answer = .ok value := by
  cases answer with
  | ok value => exact .pure ⟨value, rfl⟩ fun _ _ => rfl
  | error error => exact .throw nofun

end Yields

end Laying

end MatchCompiler
