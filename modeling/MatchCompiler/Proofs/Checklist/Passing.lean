import MatchCompiler.Proofs.Checklist
import MatchCompiler.Proofs.Implication

/-!
# Steps that pass and steps that stop

Both are ways for steps to be carried out without a failure: to their end, or up
to a test that comes out false.
-/

set_option autoImplicit false

namespace MatchCompiler

namespace Step

/-- Every test that is reached asks about a value of the right kind. -/
def Proper (types : TypeOracle) (typing : Typing) (table : AccessTable) (steps : List Step)
    (slots : Slots Value) : Prop :=
  ∀ front asked back after, steps = front ++ .test asked :: back →
    runAll typing table front slots = .ok (some after) →
    ∀ value, after.get? asked.subject = some value → asked.Suits types table value

structure Stops (types : TypeOracle) (typing : Typing) (table : AccessTable) (steps : List Step)
    (slots : Slots Value) : Prop where
  runs : runAll typing table steps slots = .ok none
  proper : Proper types typing table steps slots

structure Passes (types : TypeOracle) (typing : Typing) (table : AccessTable) (input : Value)
    (steps : List Step) (slots after : Slots Value) : Prop where
  runs : runAll typing table steps slots = .ok (some after)
  proper : Proper types typing table steps slots
  sound : after.Sound table input
  below : slots.Below after

variable {types : TypeOracle} {typing : Typing} {table : AccessTable} {input : Value}
  {front back : List Step} {slots middle after : Slots Value}

theorem Proper.append (first : Proper types typing table front slots)
    (second : ∀ middle, runAll typing table front slots = .ok (some middle) →
      Proper types typing table back middle) :
    Proper types typing table (front ++ back) slots := by
  intro before asked behind after split ran
  rcases List.append_eq_append_iff.mp split with ⟨between, rfl, backSplit⟩ |
    ⟨between, frontSplit, backSplit⟩
  · rw [runAll_append] at ran
    cases passed : runAll typing table front slots with
    | error error => simp [passed] at ran
    | ok result =>
        cases result with
        | none => simp [passed] at ran
        | some middle =>
            simp only [passed] at ran
            exact second middle passed between asked behind after backSplit ran
  · cases between with
    | nil =>
        obtain rfl : front = before := by simpa using frontSplit
        exact second after ran [] asked behind after (by simpa using backSplit.symm) rfl
    | cons step between =>
        obtain ⟨rfl, _⟩ := List.cons.inj backSplit
        exact first before asked between after frontSplit ran

theorem proper_nil : Proper types typing table [] slots := by
  intro front asked back after split
  simp at split

theorem proper_test {asked : Test} {value : Value} (found : slots.get? asked.subject = some value)
    (suits : asked.Suits types table value) :
    Proper types typing table [.test asked] slots := by
  intro front other back after split ran other' otherFound
  obtain ⟨rfl, rfl⟩ : front = [] ∧ other = asked := by
    cases front with
    | nil => exact ⟨rfl, (Step.test.inj (List.cons.inj split).1).symm⟩
    | cons _ _ => simp at split
  obtain rfl : slots = after := by simpa [runAll] using ran
  obtain rfl := Option.some.inj (found.symm.trans otherFound)
  exact suits

theorem proper_access {made : Access} : Proper types typing table [.access made] slots := by
  intro front other back after split
  cases front <;> simp at split

theorem passes_nil (sound : slots.Sound table input) :
    Passes types typing table input [] slots slots :=
  ⟨rfl, proper_nil, sound, fun _ _ found => found⟩

theorem Passes.append (first : Passes types typing table input front slots middle)
    (second : Passes types typing table input back middle after) :
    Passes types typing table input (front ++ back) slots after where
  runs := by rw [runAll_append, first.runs]; exact second.runs
  proper := first.proper.append fun other ran => by
    obtain rfl : middle = other := by simpa [first.runs] using ran
    exact second.proper
  sound := second.sound
  below := first.below.trans second.below

theorem Passes.stops (first : Passes types typing table input front slots middle)
    (second : Stops types typing table back middle) :
    Stops types typing table (front ++ back) slots where
  runs := by rw [runAll_append, first.runs]; exact second.runs
  proper := first.proper.append fun other ran => by
    obtain rfl : middle = other := by simpa [first.runs] using ran
    exact second.proper

theorem Stops.append (first : Stops types typing table front slots) :
    Stops types typing table (front ++ back) slots where
  runs := by rw [runAll_append, first.runs]
  proper := first.proper.append fun other ran => by simp [first.runs] at ran

theorem passes_test {asked : Test} {value : Value} (sound : slots.Sound table input)
    (found : slots.get? asked.subject = some value)
    (suits : asked.Suits types table value)
    (holds : asked.predicate.holds typing value = true) :
    Passes types typing table input [.test asked] slots slots :=
  ⟨(runAll_test found).trans (if_pos holds), proper_test found suits, sound,
    fun _ _ found => found⟩

theorem stops_test {asked : Test} {value : Value} (found : slots.get? asked.subject = some value)
    (suits : asked.Suits types table value)
    (fails : asked.predicate.holds typing value = false) :
    Stops types typing table [.test asked] slots :=
  ⟨(runAll_test found).trans (if_neg (by simp [fails])), proper_test found suits⟩

theorem length_outputs {made : Access} {kind : AccessKind} {value : Value} {outputs : List Value}
    (yielded : made.outputs kind value = .ok outputs) : outputs.length = kind.outputCount := by
  unfold Access.outputs at yielded
  split at yielded
  · contradiction
  · cases kind with
    | cast type =>
        obtain rfl := Except.ok.inj yielded
        rfl
    | deconstruct method arity owner =>
        simp only at yielded
        split at yielded
        · contradiction
        · split at yielded
          · rename_i sized
            obtain rfl := Except.ok.inj yielded
            exact sized
          · contradiction
    | field name | property name =>
        simp only at yielded
        split at yielded
        · obtain rfl := Except.ok.inj yielded
          rfl
        · contradiction
    | component position | element position =>
        simp only [Access.elementAt] at yielded
        split at yielded
        · contradiction
        · split at yielded
          · obtain rfl := Except.ok.inj yielded
            rfl
          · contradiction

theorem passes_access (lawful : table.Lawful) (sound : slots.Sound table input) {made : Access}
    {entry : AccessEntry} {value : Value} {outputs : List Value}
    (known : table.access? made = some entry) (found : slots.get? entry.input = some value)
    (yielded : made.outputs entry.kind value = .ok outputs) :
    ∃ after, Passes types typing table input [.access made] slots after ∧
      ∀ temp declared, table.temp? temp = some declared → declared.source = some made →
        ∃ result, outputs[declared.output]? = some result ∧ after.get? temp = some result := by
  have picked : ∀ temp declared, table.temp? temp = some declared →
      declared.source = some made → ∃ result, outputs[declared.output]? = some result := by
    intro temp declared tempFound filledBy
    obtain ⟨other, otherKnown, inRange, _⟩ := lawful.sourced tempFound filledBy
    obtain rfl := Option.some.inj (known.symm.trans otherKnown)
    rw [← length_outputs yielded] at inRange
    exact ⟨_, List.getElem?_eq_getElem inRange⟩
  have filled : ∃ contents, table.contents made entry.kind value = .ok contents := by
    unfold AccessTable.contents
    simp only [bind_eq_ok, mapM_eq_ok]
    suffices ∀ temps, temps ⊆ table.outputsOf made → ∃ contents, List.Forall₂
        (fun temp content => table.pick outputs temp = .ok content) temps contents by
      obtain ⟨contents, pairs⟩ := this _ (List.Subset.refl _)
      exact ⟨contents, outputs, yielded, pairs⟩
    intro temps subset
    induction temps with
    | nil => exact ⟨[], .nil⟩
    | cons temp rest ih =>
        obtain ⟨contents, pairs⟩ := ih fun other member => subset (List.mem_cons_of_mem _ member)
        obtain ⟨declared, tempFound, filledBy⟩ :=
          AccessTable.mem_outputsOf.mp (subset List.mem_cons_self)
        obtain ⟨result, isResult⟩ := picked temp declared tempFound filledBy
        refine ⟨(temp, result) :: contents, .cons ?_ pairs⟩
        simp [AccessTable.pick, tempFound, isResult]
  obtain ⟨contents, isContents⟩ := filled
  have performed : slots.perform table made = .ok (slots.fillAll contents) :=
    Slots.perform_eq_ok.mpr ⟨entry, value, contents, known, found, isContents, rfl⟩
  have afterSound := sound.perform lawful.rooted performed
  refine ⟨_, ⟨runAll_access performed, proper_access, afterSound,
    sound.below_of_perform lawful.rooted performed⟩, ?_⟩
  intro temp declared tempFound filledBy
  obtain ⟨result, isResult⟩ := picked temp declared tempFound filledBy
  obtain ⟨content, isFilled⟩ := Option.isSome_iff_exists.mp (sound.isSome_of_perform performed
    (Or.inr (AccessTable.mem_outputsOf.mpr ⟨declared, tempFound, filledBy⟩)))
  have yields := AccessTable.Yields.output tempFound filledBy known (sound.yields _ _ found) yielded
    isResult
  rw [isFilled, (afterSound.yields _ _ isFilled).unique lawful.rooted yields]
  exact ⟨result, isResult, rfl⟩

end Step

end MatchCompiler
