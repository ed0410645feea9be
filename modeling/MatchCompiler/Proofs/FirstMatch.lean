import MatchCompiler.FirstMatch
import MatchCompiler.Options

/-!
# Merged first matches

When the steps of several alternatives are interleaved, an alternative that does
not pass may be passed over without a word, and one that cannot be tried out may
end the whole match before its turn. `Merges` allows for both and for nothing
else; where every alternative can be tried out, it leaves only the first match.
Where the first alternative always goes first, one that cannot be tried out ends
the match in its turn only.
-/

set_option autoImplicit false

namespace MatchCompiler

/-- One of several items that may go first. -/
def Selection.Picks {α : Type} (selection : Selection) (items : List α) (item : α) : Prop :=
  match selection with
  | .mostShared => item ∈ items
  | .firstArm => items.head? = some item

namespace Selection.Picks

variable {α β : Type} {selection : Selection} {items : List α} {item first : α}

theorem mem (picks : selection.Picks items item) : item ∈ items := by
  cases selection with
  | mostShared => exact picks
  | firstArm => exact List.mem_of_mem_head? picks

theorem map (picks : selection.Picks items item) (f : α → β) :
    selection.Picks (items.map f) (f item) := by
  cases selection with
  | mostShared => exact List.mem_map_of_mem picks
  | firstArm =>
      have isHead : items.head? = some item := picks
      show (items.map f).head? = some (f item)
      rw [List.head?_map, isHead]
      rfl

theorem widen {left all : List α} (picks : selection.Picks (first :: left) item)
    (subset : left ⊆ all) : selection.Picks (first :: all) item := by
  cases selection with
  | mostShared => exact List.cons_subset_cons first subset picks
  | firstArm => exact picks

end Selection.Picks

namespace Candidate

/-- How a match ends, once the alternatives before `entries` are done with. -/
inductive Ends (selection : Selection) (oracle : GuardOracle) (calls : List GuardCall) :
    List (Candidate × Nat) → Run → Prop
  | exhausted : Ends selection oracle calls [] ⟨calls, .ok .noMatch⟩
  | taken {candidate : Candidate} {index : Nat} {others : List (Candidate × Nat)}
      {bindings : List (Symbol × Value)} (passes : candidate.attempt = .ok (some bindings))
      (unguarded : candidate.guard = none) :
      Ends selection oracle calls ((candidate, index) :: others)
        ⟨calls, .ok (.matched index candidate.label bindings)⟩
  | accepted {candidate : Candidate} {index : Nat} {others : List (Candidate × Nat)}
      {bindings : List (Symbol × Value)} {guard : Guard}
      (passes : candidate.attempt = .ok (some bindings)) (guarded : candidate.guard = some guard)
      (answered : oracle calls ⟨guard, bindings⟩ = .ok true) :
      Ends selection oracle calls ((candidate, index) :: others)
        ⟨calls ++ [⟨guard, bindings⟩], .ok (.matched index candidate.label bindings)⟩
  | guardFailed {candidate : Candidate} {index : Nat} {others : List (Candidate × Nat)}
      {bindings : List (Symbol × Value)} {guard : Guard} {error : WalkError}
      (passes : candidate.attempt = .ok (some bindings)) (guarded : candidate.guard = some guard)
      (answered : oracle calls ⟨guard, bindings⟩ = .error error) :
      Ends selection oracle calls ((candidate, index) :: others)
        ⟨calls ++ [⟨guard, bindings⟩], .error error⟩
  | failed {entries : List (Candidate × Nat)} {entry : Candidate × Nat} {error : WalkError}
      (picked : selection.Picks entries entry) (attempt : entry.1.attempt = .error error) :
      Ends selection oracle calls entries ⟨calls, .error error⟩

/-- A run that tries out numbered alternatives, `calls` having been made before. -/
inductive Merges (selection : Selection) (oracle : GuardOracle) :
    List GuardCall → List (Candidate × Nat) → Run → Prop
  | ended {calls : List GuardCall} {entries : List (Candidate × Nat)} {run : Run}
      (ends : Ends selection oracle calls entries run) : Merges selection oracle calls entries run
  | passedOver {calls : List GuardCall} {candidate : Candidate} {index : Nat}
      {others : List (Candidate × Nat)} {run : Run}
      (fails : ∀ bindings, candidate.attempt ≠ .ok (some bindings))
      (onward : Merges selection oracle calls others run) :
      Merges selection oracle calls ((candidate, index) :: others) run
  | rejected {calls : List GuardCall} {candidate : Candidate} {index : Nat}
      {others : List (Candidate × Nat)} {run : Run} {bindings : List (Symbol × Value)}
      {guard : Guard} (passes : candidate.attempt = .ok (some bindings))
      (guarded : candidate.guard = some guard)
      (answered : oracle calls ⟨guard, bindings⟩ = .ok false)
      (onward : Merges selection oracle (calls ++ [⟨guard, bindings⟩]) others run) :
      Merges selection oracle calls ((candidate, index) :: others) run

variable {selection : Selection} {oracle : GuardOracle} {calls : List GuardCall} {run : Run}

/-- Alternatives that are gone, all of which do not pass. -/
inductive Thinned : List (Candidate × Nat) → List (Candidate × Nat) → Prop
  | nil : Thinned [] []
  | keep {entry : Candidate × Nat} {all left : List (Candidate × Nat)}
      (onward : Thinned all left) : Thinned (entry :: all) (entry :: left)
  | drop {entry : Candidate × Nat} {all left : List (Candidate × Nat)}
      (fails : ∀ bindings, entry.1.attempt ≠ .ok (some bindings)) (onward : Thinned all left) :
      Thinned (entry :: all) left

theorem Thinned.subset {all left : List (Candidate × Nat)} (thinned : Thinned all left) :
    left ⊆ all := by
  induction thinned with
  | nil => exact List.Subset.refl _
  | keep _ ih => exact List.cons_subset_cons _ ih
  | drop _ _ ih => exact List.subset_cons_of_subset _ ih

theorem Merges.thicken {all left : List (Candidate × Nat)} (thinned : Thinned all left) :
    ∀ {calls : List GuardCall} {run : Run}, Merges selection oracle calls left run →
      Merges selection oracle calls all run := by
  induction thinned with
  | nil => exact fun merges => merges
  | drop fails _ ih => exact fun merges => .passedOver fails (ih merges)
  | keep onward ih =>
      intro calls run merges
      cases merges with
      | ended ends =>
          cases ends with
          | taken passes unguarded => exact .ended (.taken passes unguarded)
          | accepted passes guarded answered => exact .ended (.accepted passes guarded answered)
          | guardFailed passes guarded answered =>
              exact .ended (.guardFailed passes guarded answered)
          | failed picked attempt => exact .ended (.failed (picked.widen onward.subset) attempt)
      | passedOver fails onward => exact .passedOver fails (ih onward)
      | rejected passes guarded answered onward =>
          exact .rejected passes guarded answered (ih onward)

/-- A run is the first match, unless some alternative cannot be tried out. If the
first one always goes first, the first match cannot get past that one, either. -/
theorem Merges.eq_firstMatch_or {candidates : List Candidate} :
    ∀ {index : Nat} {calls : List GuardCall},
      Merges selection oracle calls (candidates.zipIdx index) run →
      run = firstMatch oracle index calls candidates ∨
        ∃ candidate ∈ candidates, ∃ error, candidate.attempt = .error error ∧
          (selection = .firstArm → (firstMatch oracle index calls candidates).result = .error error) := by
  induction candidates with
  | nil =>
      intro index calls merges
      cases merges with
      | ended ends =>
          cases ends with
          | exhausted => exact Or.inl rfl
          | failed picked _ => exact absurd picked.mem List.not_mem_nil
  | cons candidate others ih =>
      intro index calls merges
      rw [List.zipIdx_cons] at merges
      unfold firstMatch
      cases merges with
      | ended ends =>
          cases ends with
          | taken passes unguarded => exact Or.inl (by simp only [passes, unguarded])
          | accepted passes guarded answered =>
              exact Or.inl (by simp only [passes, guarded, answered])
          | guardFailed passes guarded answered =>
              exact Or.inl (by simp only [passes, guarded, answered])
          | @failed _ entry error picked attempt =>
              have member : entry.1 ∈ candidate :: others := List.fst_mem_of_mem_zipIdx
                (by rw [List.zipIdx_cons]; exact picked.mem)
              refine Or.inr ⟨entry.1, member, error, attempt, ?_⟩
              -- with the first one going first, it is the one that the first match is at
              rintro rfl
              obtain rfl : (candidate, index) = entry := Option.some.inj picked
              have headFails : candidate.attempt = .error error := attempt
              simp only [headFails]
      | passedOver fails onward =>
          cases attempted : candidate.attempt with
          | error error => exact Or.inr ⟨candidate, List.mem_cons_self, error, attempted, fun _ => rfl⟩
          | ok passed =>
              cases passed with
              | some bindings => exact absurd attempted (fails bindings)
              | none =>
                  rcases ih onward with same | ⟨other, member, rest⟩
                  · exact Or.inl same
                  · exact Or.inr ⟨other, List.mem_cons_of_mem _ member, rest⟩
      | rejected passes guarded answered onward =>
          simp only [passes, guarded, answered]
          rcases ih onward with same | ⟨other, member, rest⟩
          · exact Or.inl same
          · exact Or.inr ⟨other, List.mem_cons_of_mem _ member, rest⟩

theorem Merges.eq_firstMatch {candidates : List Candidate} {index : Nat}
    {calls : List GuardCall}
    (tried : ∀ candidate ∈ candidates, ∀ error, candidate.attempt ≠ .error error)
    (merges : Merges selection oracle calls (candidates.zipIdx index) run) :
    run = firstMatch oracle index calls candidates := by
  rcases merges.eq_firstMatch_or with same | ⟨candidate, member, error, attempt, _⟩
  · exact same
  · exact absurd attempt (tried candidate member error)

theorem Merges.eq_firstMatch_of_ok {candidates : List Candidate} {index : Nat}
    {calls : List GuardCall} {outcome : Outcome}
    (merges : Merges .firstArm oracle calls (candidates.zipIdx index) run)
    (ended : (firstMatch oracle index calls candidates).result = .ok outcome) :
    run = firstMatch oracle index calls candidates := by
  rcases merges.eq_firstMatch_or with same | ⟨_, _, error, _, fails⟩
  · exact same
  · rw [fails rfl] at ended
    contradiction

/-! ## Guards that look at the call alone -/

/-- The guard call that an alternative makes, if it passes and has a guard. -/
def call? (candidate : Candidate) : Option GuardCall :=
  match candidate.attempt, candidate.guard with
  | .ok (some bindings), some guard => some ⟨guard, bindings⟩
  | _, _ => none

def Declined (answer : Guard → List (Symbol × Value) → Except WalkError Bool)
    (candidate : Candidate) : Prop :=
  ∀ bindings, candidate.attempt = .ok (some bindings) →
    ∃ guard, candidate.guard = some guard ∧ answer guard bindings = .ok false

/-- The alternative passes with these variables, and its guard, if it has one,
accepts them. -/
def Accepted (answer : Guard → List (Symbol × Value) → Except WalkError Bool)
    (candidate : Candidate) (bindings : List (Symbol × Value)) : Prop :=
  candidate.attempt = .ok (some bindings) ∧
    ∀ guard, candidate.guard = some guard → answer guard bindings = .ok true

/-- What the end of a run says about the alternatives. -/
structure Refines (answer : Guard → List (Symbol × Value) → Except WalkError Bool)
    (candidates : List Candidate) (run : Run) : Prop where
  /-- The alternative that is taken is the first one that does not decline. -/
  matched : ∀ {index : Nat} {label : Label} {bindings : List (Symbol × Value)},
    run.result = .ok (.matched index label bindings) →
      ∃ front candidate back, candidates = front ++ candidate :: back ∧ front.length = index ∧
        (∀ earlier ∈ front, earlier.Declined answer) ∧ candidate.Accepted answer bindings ∧
        candidate.label = label ∧ run.calls = (front ++ [candidate]).filterMap call?
  noMatch : run.result = .ok .noMatch →
    (∀ candidate ∈ candidates, candidate.Declined answer) ∧
      run.calls = candidates.filterMap call?
  /-- A failure is the failure of an alternative, or of the guard that was called
  last. -/
  failed : ∀ {error : WalkError}, run.result = .error error →
    ∃ front back, candidates = front ++ back ∧ (∀ earlier ∈ front, earlier.Declined answer) ∧
      ((∃ candidate ∈ back, candidate.attempt = .error error) ∧
          run.calls = front.filterMap call? ∨
        ∃ candidate others guard bindings, back = candidate :: others ∧
          candidate.attempt = .ok (some bindings) ∧ candidate.guard = some guard ∧
          answer guard bindings = .error error ∧
          run.calls = (front ++ [candidate]).filterMap call?)

variable {answer : Guard → List (Symbol × Value) → Except WalkError Bool}

theorem Merges.split {candidates : List Candidate} :
    ∀ {index : Nat} {calls : List GuardCall},
      Merges selection (.ofFunction answer) calls (candidates.zipIdx index) run →
      ∃ front back, candidates = front ++ back ∧ (∀ earlier ∈ front, earlier.Declined answer) ∧
        Ends selection (.ofFunction answer) (calls ++ front.filterMap call?)
          (back.zipIdx (index + front.length)) run := by
  induction candidates with
  | nil =>
      intro index calls merges
      cases merges with
      | ended ends => exact ⟨[], [], rfl, by simp, by simpa using ends⟩
  | cons candidate others ih =>
      intro index calls merges
      rw [List.zipIdx_cons] at merges
      cases merges with
      | ended ends => exact ⟨[], candidate :: others, rfl, by simp, by simpa using ends⟩
      | passedOver fails onward =>
          obtain ⟨front, back, rfl, declined, ends⟩ := ih onward
          have noCall : candidate.call? = none := by
            unfold call?
            split
            · rename_i bindings _ passes _
              exact absurd passes (fails bindings)
            · rfl
          refine ⟨candidate :: front, back, rfl, ?_, ?_⟩
          · intro earlier member
            rcases List.mem_cons.mp member with rfl | inFront
            · exact fun bindings passes => absurd passes (fails bindings)
            · exact declined earlier inFront
          · rw [List.filterMap_cons_none noCall, List.length_cons, Nat.add_comm front.length,
              ← Nat.add_assoc]
            exact ends
      | rejected passes guarded answered onward =>
          rename_i bindings guard
          obtain ⟨front, back, rfl, declined, ends⟩ := ih onward
          have call : candidate.call? = some ⟨guard, bindings⟩ := by
            simp only [call?, passes, guarded]
          refine ⟨candidate :: front, back, rfl, ?_, ?_⟩
          · intro earlier member
            rcases List.mem_cons.mp member with rfl | inFront
            · intro others othersPass
              rw [passes] at othersPass
              cases othersPass
              exact ⟨guard, guarded, answered⟩
            · exact declined earlier inFront
          · rw [List.filterMap_cons_some call, List.length_cons, Nat.add_comm front.length,
              ← Nat.add_assoc]
            simpa using ends

theorem Merges.refines {candidates : List Candidate}
    (merges : Merges selection (.ofFunction answer) [] candidates.zipIdx run) :
    Refines answer candidates run := by
  obtain ⟨front, back, rfl, declined, ends⟩ := merges.split
  rw [List.nil_append, Nat.zero_add] at ends
  have called : ∀ {candidate : Candidate} {guard : Guard} {bindings : List (Symbol × Value)},
      candidate.attempt = .ok (some bindings) → candidate.guard = some guard →
      front.filterMap call? ++ [⟨guard, bindings⟩] = (front ++ [candidate]).filterMap call? := by
    intro candidate guard bindings passes guarded
    simp [call?, passes, guarded]
  cases back with
  | nil =>
      cases ends with
      | exhausted =>
          refine ⟨by simp, fun _ => ⟨by simpa using declined, by simp⟩, by simp⟩
      | failed picked _ => exact absurd picked.mem List.not_mem_nil
  | cons candidate others =>
      rw [List.zipIdx_cons] at ends
      cases ends with
      | taken passes unguarded =>
          refine ⟨?_, by simp, by simp⟩
          intro index label bindings matched
          cases matched
          refine ⟨front, candidate, others, rfl, rfl, declined, ⟨passes, ?_⟩, rfl, ?_⟩
          · simp [unguarded]
          · simp [call?, passes, unguarded]
      | accepted passes guarded answered =>
          refine ⟨?_, by simp, by simp⟩
          intro index label bindings matched
          cases matched
          refine ⟨front, candidate, others, rfl, rfl, declined, ⟨passes, ?_⟩, rfl,
            called passes guarded⟩
          intro guard same
          obtain rfl := Option.some.inj (guarded.symm.trans same)
          exact answered
      | guardFailed passes guarded answered =>
          refine ⟨by simp, by simp, ?_⟩
          intro error failed
          cases failed
          exact ⟨front, _, rfl, declined, Or.inr ⟨candidate, others, _, _, rfl, passes, guarded,
            answered, called passes guarded⟩⟩
      | failed picked attempt =>
          refine ⟨by simp, by simp, ?_⟩
          intro error failed
          cases failed
          exact ⟨front, _, rfl, declined, Or.inl ⟨⟨_, List.fst_mem_of_mem_zipIdx
            (by rw [List.zipIdx_cons]; exact picked.mem), attempt⟩, rfl⟩⟩

end Candidate

end MatchCompiler
