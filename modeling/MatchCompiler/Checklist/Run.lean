import MatchCompiler.FirstMatch
import MatchCompiler.Progress

/-!
# Carrying out a checklist

The steps of a checklist in their order, from the match input on. The first test
that fails ends it, and so does an access that cannot be made.
-/

set_option autoImplicit false

namespace MatchCompiler

/-- The slots after all steps, if every test passes. -/
def Step.runAll (typing : Typing) (table : AccessTable) :
    List Step → Slots Value → Except WalkError (Option (Slots Value))
  | [], slots => .ok (some slots)
  | .test asked :: steps, slots => do
      let value ← slots.read asked.subject
      if asked.predicate.holds typing value then runAll typing table steps slots else return none
  | .access made :: steps, slots => do
      let slots ← slots.perform table made
      runAll typing table steps slots

namespace Checklist

def run (typing : Typing) (table : AccessTable) (input : Value) (checklist : Checklist) :
    Except WalkError (Option (List (Symbol × Value))) := do
  match ← Step.runAll typing table checklist.steps (.ofInput table input) with
  | none => return none
  | some slots => return some (← slots.capture checklist.bindings)

def candidate (typing : Typing) (table : AccessTable) (input : Value) (checklist : Checklist) :
    Candidate :=
  ⟨checklist.label, checklist.guard, checklist.run typing table input⟩

/-- Checklists one after the other, without merging them. -/
def runInOrder (typing : Typing) (oracle : GuardOracle) (table : AccessTable) (input : Value)
    (checklists : List Checklist) : Run :=
  Candidate.firstMatch oracle 0 [] (checklists.map (candidate typing table input))

end Checklist

end MatchCompiler
