import MatchCompiler.Checklist.Run
import MatchCompiler.Proofs.Slots
import Mathlib.Data.List.Induction

/-!
# Checklists by themselves

A checklist can be carried out whenever its steps come in an order in which
every temp is yielded before it is used. How far it gets then depends on the
input only: steps that are done already, on whatever behalf, are steps that its
own run passes.
-/

set_option autoImplicit false

namespace MatchCompiler

namespace Step

/-- The temp that a step looks at. An access that the table does not know looks
at none. -/
def operand? (table : AccessTable) : Step → Option Temp
  | .test asked => some asked.subject
  | .access made => (table.access? made).map (·.input)

/-- A temp that is filled once some steps are carried out. -/
def Provides (table : AccessTable) (steps : List Step) (temp : Temp) : Prop :=
  temp = .root ∨
    ∃ made, .access made ∈ steps ∧ (table.access? made).isSome ∧ temp ∈ table.outputsOf made

theorem Provides.mono {table : AccessTable} {steps more : List Step} {temp : Temp}
    (provides : Provides table steps temp) (subset : steps ⊆ more) : Provides table more temp :=
  provides.imp id fun ⟨made, member, known, filled⟩ => ⟨made, subset member, known, filled⟩

/-- Every step fits the steps before it, `past` coming first of all. -/
def Throughout (fits : List Step → Step → Prop) (past steps : List Step) : Prop :=
  ∀ front step back, steps = front ++ step :: back → fits (past ++ front) step

section Throughout

variable {fits : List Step → Step → Prop} {past : List Step}

@[simp] theorem throughout_nil : Throughout fits past [] := by
  intro front step back split
  simp at split

@[simp] theorem throughout_cons {step : Step} {rest : List Step} :
    Throughout fits past (step :: rest) ↔
      fits past step ∧ Throughout fits (past ++ [step]) rest := by
  constructor
  · intro throughout
    refine ⟨?_, fun front other back split => ?_⟩
    · simpa using throughout [] step rest rfl
    · rw [List.append_assoc]
      exact throughout (step :: front) other back (by rw [split]; rfl)
  · rintro ⟨first, later⟩ front other back split
    cases front with
    | nil =>
        cases split
        rwa [List.append_nil]
    | cons head front =>
        cases split
        have fitting := later front other back rfl
        rwa [List.append_assoc] at fitting

theorem throughout_append {front back : List Step} :
    Throughout fits past (front ++ back) ↔
      Throughout fits past front ∧ Throughout fits (past ++ front) back := by
  induction front generalizing past with
  | nil => simp
  | cons step rest ih => simp [ih, and_assoc]

end Throughout

/-- The temp that a step looks at is filled by then. -/
def Supplied (table : AccessTable) (past : List Step) (step : Step) : Prop :=
  ∀ temp, step.operand? table = some temp → Provides table past temp

/-- A step that is behind a match with these slots: a test that comes out true,
an access whose temps are filled. -/
def Done (typing : Typing) (table : AccessTable) (slots : Slots Value) : Step → Prop
  | .test asked =>
      ∃ value, slots.get? asked.subject = some value ∧ asked.predicate.holds typing value = true
  | .access made =>
      (∃ after, slots.perform table made = .ok after) ∧
        ∀ temp ∈ table.outputsOf made, (slots.get? temp).isSome

variable {typing : Typing} {table : AccessTable} {input : Value} {slots all after : Slots Value}

theorem perform_of_below {made : Access} (below : slots.Below all)
    (performed : slots.perform table made = .ok after) :
    ∃ others, all.perform table made = .ok others := by
  obtain ⟨entry, value, contents, known, found, yielded, _⟩ := Slots.perform_eq_ok.mp performed
  exact ⟨_, Slots.perform_eq_ok.mpr ⟨entry, value, contents, known, below _ _ found, yielded, rfl⟩⟩

theorem Done.mono {step : Step} (done : step.Done typing table slots) (below : slots.Below all) :
    step.Done typing table all := by
  cases step with
  | test asked =>
      obtain ⟨value, found, holds⟩ := done
      exact ⟨value, below _ _ found, holds⟩
  | access made =>
      obtain ⟨⟨after, performed⟩, filled⟩ := done
      refine ⟨perform_of_below below performed, fun temp member => ?_⟩
      obtain ⟨value, found⟩ := Option.isSome_iff_exists.mp (filled temp member)
      simp [below _ _ found]

theorem done_of_perform {made : Access} (sound : slots.Sound table input) (rooted : table.Rooted)
    (performed : slots.perform table made = .ok after) :
    (Step.access made).Done typing table after :=
  ⟨perform_of_below (sound.below_of_perform rooted performed) performed,
    fun _ member => sound.isSome_of_perform performed (Or.inr member)⟩

theorem runAll_test {asked : Test} {steps : List Step} {value : Value}
    (found : slots.get? asked.subject = some value) :
    runAll typing table (.test asked :: steps) slots =
      if asked.predicate.holds typing value then runAll typing table steps slots else .ok none := by
  rw [runAll, Slots.read_eq_ok.mpr found]
  rfl

theorem runAll_access {made : Access} {steps : List Step}
    (performed : slots.perform table made = .ok after) :
    runAll typing table (.access made :: steps) slots = runAll typing table steps after := by
  rw [runAll, performed]
  rfl

theorem runAll_access_error {made : Access} {steps : List Step} {error : WalkError}
    (failed : slots.perform table made = .error error) :
    runAll typing table (.access made :: steps) slots = .error error := by
  rw [runAll, failed]
  rfl

theorem runAll_append (front back : List Step) (slots : Slots Value) :
    runAll typing table (front ++ back) slots =
      match runAll typing table front slots with
      | .error error => .error error
      | .ok none => .ok none
      | .ok (some after) => runAll typing table back after := by
  induction front generalizing slots with
  | nil => rfl
  | cons step rest ih =>
      cases step with
      | test asked =>
          rw [List.cons_append, runAll, runAll]
          cases slots.read asked.subject with
          | error error => rfl
          | ok value =>
              simp only [bind, Except.bind]
              split
              · exact ih slots
              · rfl
      | access made =>
          rw [List.cons_append, runAll, runAll]
          cases slots.perform table made with
          | error error => rfl
          | ok after => exact ih after

/-- A run of some first steps, all of them done, which leaves slots that are
filled alike. -/
structure Reached (typing : Typing) (table : AccessTable) (input : Value)
    (front : List Step) (all after : Slots Value) : Prop where
  runs : runAll typing table front (.ofInput table input) = .ok (some after)
  sound : after.Sound table input
  below : after.Below all
  provided : ∀ temp, Provides table front temp → (after.get? temp).isSome

theorem reached_nil (rooted : table.Rooted) (sound : all.Sound table input) :
    Reached typing table input [] all (.ofInput table input) where
  runs := rfl
  sound := Slots.sound_ofInput rooted input
  below := by
    have first := Slots.sound_ofInput rooted input
    refine first.below sound rooted fun temp filled => ?_
    obtain ⟨value, found⟩ := Option.isSome_iff_exists.mp filled
    rw [(Slots.get?_ofInput found).1, sound.root]
    rfl
  provided := by
    rintro temp (rfl | ⟨_, member, _⟩)
    · rw [(Slots.sound_ofInput rooted input).root]
      rfl
    · exact absurd member List.not_mem_nil

theorem Reached.ready {front back : List Step} {step : Step}
    (reached : Reached typing table input front all after)
    (ordered : Throughout (Supplied table) [] (front ++ step :: back)) (temp : Temp)
    (operand : step.operand? table = some temp) :
    ∃ value, after.get? temp = some value ∧ all.get? temp = some value := by
  obtain ⟨value, found⟩ :=
    Option.isSome_iff_exists.mp (reached.provided temp (ordered front step back rfl temp operand))
  exact ⟨value, found, reached.below _ _ found⟩

theorem Reached.step {front back : List Step} {step : Step} (rooted : table.Rooted)
    (allSound : all.Sound table input) (reached : Reached typing table input front all after)
    (ordered : Throughout (Supplied table) [] (front ++ step :: back)) (done : step.Done typing table all) :
    ∃ further, Reached typing table input (front ++ [step]) all further := by
  cases step with
  | test asked =>
      obtain ⟨value, found, same⟩ := reached.ready ordered asked.subject rfl
      obtain ⟨other, otherFound, holds⟩ := done
      obtain rfl := Option.some.inj (same.symm.trans otherFound)
      refine ⟨after, ?_, reached.sound, reached.below, ?_⟩
      · rw [runAll_append, reached.runs]
        exact (runAll_test found).trans (if_pos holds)
      · rintro temp (rfl | ⟨made, member, rest⟩)
        · exact reached.provided _ (Or.inl rfl)
        · refine reached.provided temp (Or.inr ⟨made, ?_, rest⟩)
          simpa using member
  | access made =>
      obtain ⟨⟨others, othersMade⟩, filled⟩ := done
      cases performed : after.perform table made with
      | error error =>
          obtain ⟨entry, value, contents, known, found, yielded, _⟩ :=
            Slots.perform_eq_ok.mp othersMade
          obtain ⟨own, ownFound, same⟩ :=
            reached.ready ordered entry.input (by simp [operand?, known])
          obtain rfl := Option.some.inj (same.symm.trans found)
          have ownMade := Slots.perform_eq_ok.mpr ⟨entry, own, contents, known, ownFound, yielded, rfl⟩
          rw [performed] at ownMade
          contradiction
      | ok further =>
          have furtherSound := reached.sound.perform rooted performed
          refine ⟨further, ?_, furtherSound, ?_, ?_⟩
          · rw [runAll_append, reached.runs]
            exact runAll_access performed
          · refine furtherSound.below allSound rooted fun temp isFilled => ?_
            rcases Slots.outputsOf_of_perform performed isFilled with before | member
            · obtain ⟨value, found⟩ := Option.isSome_iff_exists.mp before
              simp [reached.below _ _ found]
            · exact filled temp member
          · rintro temp provided
            apply reached.sound.isSome_of_perform performed
            rcases provided with rfl | ⟨other, member, known, isOutput⟩
            · exact Or.inl (reached.provided _ (Or.inl rfl))
            · rcases List.mem_append.mp member with inFront | isLast
              · exact Or.inl (reached.provided temp (Or.inr ⟨other, inFront, known, isOutput⟩))
              · obtain rfl := Step.access.inj (List.mem_singleton.mp isLast)
                exact Or.inr isOutput

theorem reached_of_done (rooted : table.Rooted) (sound : all.Sound table input)
    {steps : List Step} (ordered : Throughout (Supplied table) [] steps) {front back : List Step}
    (split : steps = front ++ back) (done : ∀ step ∈ front, step.Done typing table all) :
    ∃ after, Reached typing table input front all after := by
  induction front using List.reverseRecOn generalizing back with
  | nil => exact ⟨_, reached_nil rooted sound⟩
  | append_singleton front step ih =>
      have rebracket : steps = front ++ step :: back := by simp [split]
      obtain ⟨after, reached⟩ := ih rebracket fun other member =>
        done other (List.mem_append_left _ member)
      exact reached.step rooted sound (rebracket ▸ ordered) (done step (by simp))

theorem tests_of_runAll (rooted : table.Rooted) {steps : List Step} {slots after : Slots Value}
    (sound : slots.Sound table input)
    (passed : runAll typing table steps slots = .ok (some after)) :
    after.Sound table input ∧ slots.Below after ∧ ∀ asked, .test asked ∈ steps →
      ∃ value, after.get? asked.subject = some value ∧ asked.predicate.holds typing value = true := by
  induction steps generalizing slots with
  | nil =>
      simp only [runAll, Except.ok.injEq, Option.some.injEq] at passed
      subst passed
      exact ⟨sound, fun _ _ found => found, by simp⟩
  | cons step rest ih =>
      cases step with
      | test asked =>
          rw [runAll] at passed
          obtain ⟨value, read, onward⟩ := bind_eq_ok.mp passed
          split at onward
          · rename_i holds
            obtain ⟨afterSound, below, tests⟩ := ih sound onward
            refine ⟨afterSound, below, fun other member => ?_⟩
            rcases List.mem_cons.mp member with isFirst | inRest
            · obtain rfl := Step.test.inj isFirst
              exact ⟨value, below _ _ (Slots.read_eq_ok.mp read), holds⟩
            · exact tests other inRest
          · simp [pure, Except.pure] at onward
      | access made =>
          rw [runAll] at passed
          obtain ⟨middle, performed, onward⟩ := bind_eq_ok.mp passed
          obtain ⟨afterSound, below, tests⟩ := ih (sound.perform rooted performed) onward
          refine ⟨afterSound, (sound.below_of_perform rooted performed).trans below,
            fun other member => ?_⟩
          rcases List.mem_cons.mp member with isFirst | inRest
          · contradiction
          · exact tests other inRest

end Step

namespace Checklist

/-- Each step and each variable uses a temp that the checklist itself provides. -/
structure Closed (table : AccessTable) (checklist : Checklist) : Prop where
  ordered : Step.Throughout (Step.Supplied table) [] checklist.steps
  bound : ∀ binding ∈ checklist.bindings, Step.Provides table checklist.steps binding.temp

variable {typing : Typing} {table : AccessTable} {input : Value} {checklist : Checklist}
  {all : Slots Value}

/-- A checklist whose steps are all done passes, with the variables that the
slots at hand give. -/
theorem run_of_done (rooted : table.Rooted) (sound : all.Sound table input)
    (closed : checklist.Closed table)
    (done : ∀ step ∈ checklist.steps, step.Done typing table all) :
    ∃ bound, checklist.run typing table input = .ok (some bound) ∧
      all.capture checklist.bindings = .ok bound := by
  obtain ⟨after, reached⟩ := Step.reached_of_done rooted sound closed.ordered
    (List.append_nil checklist.steps).symm done
  have ready : ∀ binding ∈ checklist.bindings, (after.get? binding.temp).isSome :=
    fun binding member => reached.provided _ (closed.bound binding member)
  obtain ⟨bound, own, same⟩ := Slots.capture_eq_of_below reached.below ready
  refine ⟨bound, ?_, same⟩
  unfold run
  simp only [reached.runs, own, bind, Except.bind, pure, Except.pure]

theorem run_of_error (rooted : table.Rooted) (sound : all.Sound table input)
    (closed : checklist.Closed table) {front back : List Step} {made : Access} {error : WalkError}
    (split : checklist.steps = front ++ .access made :: back)
    (done : ∀ step ∈ front, step.Done typing table all)
    (failed : all.perform table made = .error error) :
    checklist.run typing table input = .error error := by
  obtain ⟨after, reached⟩ := Step.reached_of_done rooted sound closed.ordered split done
  have ownFailed : after.perform table made = .error error := by
    refine Slots.perform_eq_error reached.below (fun entry known => ?_) failed
    obtain ⟨value, found, _⟩ := reached.ready (split ▸ closed.ordered)
      entry.input (by simp [Step.operand?, known])
    simp [found]
  have ran : Step.runAll typing table checklist.steps (.ofInput table input) = .error error := by
    rw [split, Step.runAll_append, reached.runs]
    exact Step.runAll_access_error ownFailed
  unfold run
  simp only [ran, bind, Except.bind]

theorem run_ne_of_test (rooted : table.Rooted) (sound : all.Sound table input) {asked : Test}
    (member : .test asked ∈ checklist.steps) {value : Value}
    (found : all.get? asked.subject = some value)
    (refused : asked.predicate.holds typing value = false) (bound : List (Symbol × Value)) :
    checklist.run typing table input ≠ .ok (some bound) := by
  intro passed
  unfold run at passed
  obtain ⟨after, ran, captured⟩ := bind_eq_ok.mp passed
  cases after with
  | none => simp [pure, Except.pure] at captured
  | some after =>
      obtain ⟨afterSound, _, tests⟩ :=
        Step.tests_of_runAll rooted (Slots.sound_ofInput rooted input) ran
      obtain ⟨other, otherFound, holds⟩ := tests asked member
      have same := (afterSound.yields _ _ otherFound).unique rooted (sound.yields _ _ found)
      rw [same, refused] at holds
      contradiction

end Checklist

end MatchCompiler
