import MatchCompiler.Fact
import MatchCompiler.Proofs.Pattern.Matching
import MatchCompiler.Proofs.Slots

/-!
# Facts that are true

A fact is true of a value that it says nothing wrong about. Facts about slots
stay true through what a match does, and through a join with facts that may be
wrong, where every slot conforms to its static type.
-/

set_option autoImplicit false

namespace MatchCompiler

/-- The fact is true of a value. -/
structure Fact.Holds (typing : Typing) (fact : Fact) (value : Value) : Prop where
  notNull : fact.nullness = .notNull → value.isNull = false
  isInstance : value.isNull = false → typing.isInstance value fact.type = true

namespace Fact

variable {types : TypeOracle} {typing : Typing} {table : AccessTable} {temp : Temp}
  {static : Ty} {value : Value} {mine other : Fact}

theorem holds_ofStatic (conforms : typing.Conforms types (table.typeOf temp) value) :
    (ofStatic types table temp).Holds typing value where
  notNull := by
    intro told
    cases isNull : value.isNull with
    | false => rfl
    | true => simp [ofStatic, conforms.null isNull] at told
  isInstance := conforms.notNull

theorem Holds.join_left (holds : mine.Holds typing value)
    (conforms : typing.Conforms types static value) : (mine.join static other).Holds typing value where
  notNull := by
    intro told
    apply holds.notNull
    unfold Fact.join Nullness.join at told
    dsimp only at told
    split at told
    · assumption
    · contradiction
  isInstance := by
    intro notNull
    unfold Fact.join
    dsimp only
    split
    · exact holds.isInstance notNull
    · exact conforms.notNull notNull

theorem join_comm (static : Ty) (mine other : Fact) :
    mine.join static other = other.join static mine := by
  unfold join
  congr 1
  · cases mine.nullness <;> cases other.nullness <;> rfl
  · by_cases same : mine.type = other.type
    · rw [if_pos same, if_pos same.symm, same]
    · rw [if_neg same, if_neg (Ne.symm same)]

theorem Holds.join_right (holds : other.Holds typing value)
    (conforms : typing.Conforms types static value) :
    (mine.join static other).Holds typing value := by
  rw [join_comm]
  exact holds.join_left conforms

theorem Holds.refine (holds : mine.Holds typing value) {predicate : Predicate} {outcome : Bool}
    (came : predicate.holds typing value = outcome) :
    (predicate.refine outcome mine).Holds typing value := by
  cases predicate with
  | nonNull =>
      cases outcome with
      | true => exact ⟨fun _ => by simpa [Predicate.holds] using came, holds.isInstance⟩
      | false => exact holds
  | isNull =>
      cases outcome with
      | true => exact ⟨fun told => (by cases told), holds.isInstance⟩
      | false => exact ⟨fun _ => came, holds.isInstance⟩
  | ofType type =>
      cases outcome with
      | true => exact ⟨fun _ => Typing.isNull_of_isInstance came, fun _ => came⟩
      | false => exact holds
  | equals constant =>
      cases outcome with
      | true =>
          refine ⟨fun told => ?_, holds.isInstance⟩
          have sameNull := Value.isNull_of_equals came
          cases isNull : constant.isNull with
          | false => rw [← isNull]; exact sameNull
          | true => simp [Predicate.refine, isNull] at told
      | false =>
          cases constant with
          | null =>
              refine ⟨fun _ => ?_, holds.isInstance⟩
              cases value with
              | null => exact absurd came (by simp [Predicate.holds, Value.equals])
              | _ => rfl
          | _ => exact holds
  | never => cases outcome <;> exact holds

end Fact

/-! ## Facts about slots -/

def Slots.Typed (types : TypeOracle) (typing : Typing) (table : AccessTable)
    (slots : Slots Value) : Prop :=
  ∀ temp value, slots.get? temp = some value → typing.Conforms types (table.typeOf temp) value

namespace Facts

/-- What is known about a slot is true of its content. Of an empty slot nothing
is known. -/
def HoldOf (typing : Typing) (facts : Facts) (slots : Slots Value) : Prop :=
  ∀ temp fact, facts.get? temp = some fact →
    ∃ value, slots.get? temp = some value ∧ fact.Holds typing value

variable {types : TypeOracle} {typing : Typing} {table : AccessTable} {input : Value}
  {slots after : Slots Value} {facts others : Facts}

theorem get?_join_eq (table : AccessTable) (mine others : Facts) (temp : Temp) :
    (mine.join table others).get? temp =
      match mine.get? temp, others.get? temp with
      | some first, some second => some (first.join (table.typeOf temp) second)
      | _, _ => none := by
  unfold join Slots.get?
  rw [Array.getElem?_mapIdx]
  rcases mine.cells[temp.index]? with _ | (_ | first) <;> rfl

theorem get?_join (table : AccessTable) (mine others : Facts) {temp : Temp} {fact : Fact}
    (found : (mine.join table others).get? temp = some fact) :
    ∃ first second, mine.get? temp = some first ∧ others.get? temp = some second ∧
      fact = first.join (table.typeOf temp) second := by
  rw [get?_join_eq] at found
  split at found
  · rename_i first second firstFound secondFound
    exact ⟨first, second, firstFound, secondFound, (Option.some.inj found).symm⟩
  · contradiction

theorem HoldOf.join_left (holdOf : facts.HoldOf typing slots)
    (typed : slots.Typed types typing table) :
    (facts.join table others).HoldOf typing slots := by
  intro temp fact found
  obtain ⟨first, second, firstFound, _, rfl⟩ := get?_join table facts others found
  obtain ⟨value, filled, holds⟩ := holdOf temp first firstFound
  exact ⟨value, filled, holds.join_left (typed temp value filled)⟩

theorem HoldOf.join_right (holdOf : others.HoldOf typing slots)
    (typed : slots.Typed types typing table) :
    (facts.join table others).HoldOf typing slots := by
  intro temp fact found
  obtain ⟨first, second, _, secondFound, rfl⟩ := get?_join table facts others found
  obtain ⟨value, filled, holds⟩ := holdOf temp second secondFound
  exact ⟨value, filled, holds.join_right (typed temp value filled)⟩

theorem holdOf_initial (rooted : table.Rooted)
    (typed : (Slots.ofInput table input).Typed types typing table) :
    (initial types table).HoldOf typing (Slots.ofInput table input) := by
  intro temp fact found
  have filled := (Slots.sound_ofInput rooted input).root
  unfold initial at found
  rw [Slots.get?_set] at found
  split at found
  · rename_i isRoot
    obtain rfl := Option.some.inj found
    rw [isRoot.1]
    exact ⟨input, filled, Fact.holds_ofStatic (typed _ _ filled)⟩
  · simp at found

theorem HoldOf.afterTest (holdOf : facts.HoldOf typing slots) {asked : Test} {value : Value}
    (filled : slots.get? asked.subject = some value) {outcome : Bool}
    (came : asked.predicate.holds typing value = outcome) :
    (facts.afterTest asked outcome).HoldOf typing slots := by
  intro temp fact found
  unfold Facts.afterTest at found
  rw [Slots.get?_update] at found
  split at found
  · rename_i isSubject
    subst isSubject
    obtain ⟨before, beforeFound, rfl⟩ := Option.map_eq_some_iff.mp found
    obtain ⟨content, sameFilled, holds⟩ := holdOf _ before beforeFound
    obtain rfl := Option.some.inj (filled.symm.trans sameFilled)
    exact ⟨value, filled, holds.refine came⟩
  · exact holdOf temp fact found

theorem get?_foldl_set (outputs : List Temp) (content : Temp → Fact) (facts : Facts)
    (temp : Temp) :
    (outputs.foldl (fun facts temp => facts.set temp (content temp)) facts).get? temp =
      if temp ∈ outputs ∧ temp.index < facts.cells.size then some (content temp)
      else facts.get? temp := by
  induction outputs generalizing facts with
  | nil => simp
  | cons output rest ih =>
      rw [List.foldl_cons, ih, Slots.size_cells_set, Slots.get?_set]
      by_cases here : temp = output
      · subst here
        by_cases inside : temp.index < facts.cells.size <;> simp [inside]
      · simp [here]

theorem get?_afterAccess_eq {made : Access} {entry : AccessEntry}
    (known : table.access? made = some entry) (temp : Temp) :
    (facts.afterAccess types table made).get? temp =
      if temp ∈ table.outputsOf made ∧ temp.index < facts.cells.size then
        some (produced types table entry.kind (facts.get? entry.input) temp)
      else facts.get? temp := by
  unfold afterAccess
  rw [known]
  exact get?_foldl_set _ _ facts temp

theorem get?_afterAccess {made : Access} {temp : Temp} {fact : Fact}
    (found : (facts.afterAccess types table made).get? temp = some fact) :
    facts.get? temp = some fact ∨ ∃ entry, table.access? made = some entry ∧
      temp ∈ table.outputsOf made ∧
      fact = produced types table entry.kind (facts.get? entry.input) temp := by
  cases known : table.access? made with
  | none =>
      unfold afterAccess at found
      rw [known] at found
      exact Or.inl found
  | some entry =>
      rw [get?_afterAccess_eq known] at found
      split at found
      · rename_i isOutput
        exact Or.inr ⟨entry, rfl, isOutput.1, (Option.some.inj found).symm⟩
      · exact Or.inl found

theorem HoldOf.afterAccess (holdOf : facts.HoldOf typing slots) (lawful : table.Lawful)
    (sound : slots.Sound table input) {made : Access}
    (performed : slots.perform table made = .ok after)
    (typed : after.Typed types typing table) :
    (facts.afterAccess types table made).HoldOf typing after := by
  intro temp fact found
  rcases get?_afterAccess found with before | ⟨entry, known, member, rfl⟩
  · obtain ⟨value, filled, holds⟩ := holdOf temp fact before
    exact ⟨value, sound.below_of_perform lawful.rooted performed _ _ filled, holds⟩
  · obtain ⟨value, filled⟩ :=
      Option.isSome_iff_exists.mp (sound.isSome_of_perform performed (Or.inr member))
    have conforms := typed temp value filled
    refine ⟨value, filled, ?_⟩
    unfold produced
    split
    · rename_i kind inputFact type fact isCast inputKnown
      obtain ⟨same, _, notNull, sameFilled⟩ :=
        sound.get?_of_cast lawful.rooted performed known isCast member
      obtain rfl := Option.some.inj (filled.symm.trans sameFilled)
      obtain ⟨declared, isDeclared, filledBy⟩ := AccessTable.mem_outputsOf.mp member
      obtain ⟨source, sourceKnown, _, castType⟩ := lawful.sourced isDeclared filledBy
      obtain rfl := Option.some.inj (known.symm.trans sourceKnown)
      have isType : table.typeOf temp = type :=
        (AccessTable.typeOf_of_temp? isDeclared).trans (castType type isCast)
      exact ⟨fun _ => notNull, fun _ => isType ▸ conforms.notNull notNull⟩
    · exact Fact.holds_ofStatic conforms

end Facts

end MatchCompiler
