import MatchCompiler.Pattern.Matching
import MatchCompiler.Proofs.Checklist.Passing
import MatchCompiler.Proofs.Pattern.Sequence

/-!
# Fragments do what patterns mean

A value is well typed for a pattern where it has the parts that the pattern
looks at, each of them of its static type, as far as matching ever gets. On such
a value the fragment of a pattern passes if and only if the pattern matches, and
no access in it fails.
-/

set_option autoImplicit false

namespace MatchCompiler

/-- A value that a static type admits. -/
structure Typing.Conforms (typing : Typing) (types : TypeOracle) (type : Ty) (value : Value) :
    Prop where
  null : value.isNull = true → types.canBeNull type = true
  notNull : value.isNull = false → typing.isInstance value type = true

namespace Pattern

/-- The value has what positional parts are taken from. -/
def Fits (shape : Shape) (count : Nat) (value : Value) : Prop :=
  match shape with
  | .method _ => ∃ components, value.components? = some components ∧ components.length = count
  | .tuple => ∃ elements, value.tupleElements? = some elements
  | .indexed length _ =>
      ∃ measured, value.member? (memberName length) = some measured ∧
        (measured.equals (.int count) = true → ∃ elements, value.elements? = some elements)

/-- The static type at which a value is compared with a constant. -/
def comparedType (types : TypeOracle) (input type : Ty) : Ty :=
  if types.classify input type = .always then input else type

mutual

/-- The value suits the static types of a pattern. Where an earlier part does
not match, nothing is asked of later ones. -/
def WellTyped (types : TypeOracle) (typing : Typing) : Pattern → Value → Prop
  | .discard _, _ | .var _ _, _ => True
  | .typed input _ _, value => typing.Conforms types input value
  | .constant input wanted type, value =>
      typing.Conforms types input value ∧
        ∀ b, wanted = .bool b → types.canBeNull (comparedType types input type) = false →
          typing.isInstance value type = true → ∃ c, value = .bool c
  | .compound input declared none members _, value =>
      typing.Conforms types input value ∧
        (admits typing declared value = true → MembersWellTyped types typing members value)
  | .compound input declared (some (shape, parts)) members _, value =>
      typing.Conforms types input value ∧
        (admits typing declared value = true →
          Fits shape parts.length value ∧
            ∀ values, positionalValues shape parts.length value = some values →
              PartsWellTyped types typing parts values ∧
                ((matchParts? typing parts values).isSome →
                  MembersWellTyped types typing members value))

def PartsWellTyped (types : TypeOracle) (typing : Typing) : List Pattern → List Value → Prop
  | [], _ => True
  | _ :: _, [] => False
  | part :: parts, value :: values =>
      WellTyped types typing part value ∧
        ((match? typing part value).isSome → PartsWellTyped types typing parts values)

def MembersWellTyped (types : TypeOracle) (typing : Typing) :
    List (Member × Pattern) → Value → Prop
  | [], _ => True
  | (member, pattern) :: members, value =>
      ∃ content, value.member? (memberName member) = some content ∧
        WellTyped types typing pattern content ∧
        ((match? typing pattern content).isSome → MembersWellTyped types typing members value)

end

/-! ## The variables of a match -/

theorem map_fst_named (name : Option Symbol) (value : Value) :
    (named name value).map Prod.fst = name.toList := by
  cases name <;> rfl

mutual

theorem map_fst_of_match? (typing : Typing) :
    ∀ (pattern : Pattern) {value : Value} {bindings : List (Symbol × Value)},
      match? typing pattern value = some bindings →
      bindings.map Prod.fst = pattern.boundNames
  | .discard _, _, _, matched => by
      simp only [match?, Option.some.injEq] at matched
      subst matched
      rfl
  | .var _ _, _, _, matched => by
      simp only [match?, Option.some.injEq] at matched
      subst matched
      rfl
  | .typed _ _ name, _, _, matched => by
      simp only [match?, Option.ite_none_right_eq_some, Option.some.injEq] at matched
      obtain ⟨_, rfl⟩ := matched
      exact map_fst_named name _
  | .constant _ _ _, _, bindings, matched => by
      simp only [match?] at matched
      obtain rfl : [] = bindings := by
        repeat' split at matched
        all_goals first | contradiction | exact Option.some.inj matched
      rfl
  | .compound _ _ none members name, _, _, matched => by
      simp only [match?, Option.ite_none_right_eq_some, Option.bind_eq_bind,
        Option.bind_eq_some_iff, Option.pure_def, Option.some.injEq] at matched
      obtain ⟨_, inner, innerMatched, rfl⟩ := matched
      rw [List.map_append, map_fst_of_matchMembers? typing members innerMatched, map_fst_named,
        boundNames]
  | .compound _ _ (some (_, parts)) members name, _, _, matched => by
      simp only [match?, Option.ite_none_right_eq_some, Option.bind_eq_bind,
        Option.bind_eq_some_iff, Option.pure_def, Option.some.injEq] at matched
      obtain ⟨_, values, _, outer, outerMatched, inner, innerMatched, rfl⟩ := matched
      rw [List.map_append, List.map_append, map_fst_of_matchParts? typing parts outerMatched,
        map_fst_of_matchMembers? typing members innerMatched, map_fst_named, boundNames]

theorem map_fst_of_matchParts? (typing : Typing) :
    ∀ (parts : List Pattern) {values : List Value} {bindings : List (Symbol × Value)},
      matchParts? typing parts values = some bindings →
      bindings.map Prod.fst = partNames parts
  | [], _, _, matched => by
      simp only [matchParts?, Option.some.injEq] at matched
      subst matched
      rfl
  | _ :: _, [], _, matched => by
      simp only [matchParts?] at matched
      contradiction
  | part :: parts, value :: values, _, matched => by
      simp only [matchParts?, Option.bind_eq_bind, Option.bind_eq_some_iff, Option.pure_def,
        Option.some.injEq] at matched
      obtain ⟨head, headMatched, tail, tailMatched, rfl⟩ := matched
      rw [List.map_append, map_fst_of_match? typing part headMatched,
        map_fst_of_matchParts? typing parts tailMatched, partNames]

theorem map_fst_of_matchMembers? (typing : Typing) :
    ∀ (members : List (Member × Pattern)) {value : Value} {bindings : List (Symbol × Value)},
      matchMembers? typing members value = some bindings →
      bindings.map Prod.fst = memberNames members
  | [], _, _, matched => by
      simp only [matchMembers?, Option.some.injEq] at matched
      subst matched
      rfl
  | (member, pattern) :: members, _, _, matched => by
      simp only [matchMembers?, Option.bind_eq_bind, Option.bind_eq_some_iff, Option.pure_def,
        Option.some.injEq] at matched
      obtain ⟨content, _, head, headMatched, tail, tailMatched, rfl⟩ := matched
      rw [List.map_append, map_fst_of_match? typing pattern headMatched,
        map_fst_of_matchMembers? typing members tailMatched, memberNames]

end

end Pattern

/-! ## Fragments that carry a match -/

/-- What carrying out a fragment leads to. -/
inductive Fragment.Carries (types : TypeOracle) (typing : Typing) (table : AccessTable)
    (input : Value) (fragment : Fragment) (slots : Slots Value) :
    Option (List (Symbol × Value)) → Prop
  | fails (stops : Step.Stops types typing table fragment.steps slots) :
      Carries types typing table input fragment slots none
  | passes {after : Slots Value} {bound : List (Symbol × Value)}
      (passes : Step.Passes types typing table input fragment.steps slots after)
      (captured : after.capture fragment.bindings = .ok bound) :
      Carries types typing table input fragment slots (some bound)

namespace Fragment.Carries

variable {types : TypeOracle} {typing : Typing} {table : AccessTable} {input : Value}
  {front back fragment : Fragment} {slots middle : Slots Value}
  {first second result : Option (List (Symbol × Value))} {steps : List Step}

theorem empty (sound : slots.Sound table input) :
    Carries types typing table input .empty slots (some []) :=
  .passes (Step.passes_nil sound) rfl

theorem stop (stops : Step.Stops types typing table steps slots) :
    Carries types typing table input (fragment.after steps) slots none :=
  .fails stops.append

theorem after (passes : Step.Passes types typing table input steps slots middle)
    (carries : fragment.Carries types typing table input middle result) :
    (fragment.after steps).Carries types typing table input slots result := by
  cases carries with
  | fails stops => exact .fails (passes.stops stops)
  | passes further captured => exact .passes (passes.append further) captured

theorem append (carries : front.Carries types typing table input slots first)
    (onward : ∀ after, first.isSome → after.Sound table input → slots.Below after →
      back.Carries types typing table input after second) :
    (front ++ back).Carries types typing table input slots
      (do let outer ← first; let inner ← second; return outer ++ inner) := by
  cases carries with
  | fails stops => exact .fails stops.append
  | @passes after bound passes captured =>
      have further := onward after rfl passes.sound passes.below
      cases further with
      | fails stops => exact .fails (passes.stops stops)
      | @passes last others furtherPasses othersCaptured =>
          exact .passes (passes.append furtherPasses) (Slots.capture_append
            (Slots.capture_of_below furtherPasses.below captured) othersCaptured)

theorem bind (carries : fragment.Carries types typing table input slots result)
    {temp : Temp} {value : Value} (found : slots.get? temp = some value) (name : Option Symbol) :
    (fragment.bind name temp).Carries types typing table input slots
      (result.map (· ++ Pattern.named name value)) := by
  cases carries with
  | fails stops => exact .fails stops
  | passes passes captured =>
      refine .passes passes (Slots.capture_append captured ?_)
      cases name with
      | none => rfl
      | some name => exact Slots.capture_singleton (passes.below _ _ found)

end Fragment.Carries

end MatchCompiler
