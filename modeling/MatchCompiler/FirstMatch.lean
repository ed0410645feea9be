import MatchCompiler.Run

/-!
# First match

What a switch means: its alternatives are tried one after the other, and the
first one that passes and whose guard, if it has one, accepts is taken. Guards
are asked in that order, and only for alternatives that pass.
-/

set_option autoImplicit false

namespace MatchCompiler

/-- An alternative, tried out on a value: the variables that it binds where it
passes. -/
structure Candidate where
  label : Label
  guard : Option Guard
  attempt : Except WalkError (Option (List (Symbol × Value)))

/-- Tries alternatives in turn, the first of which has number `index`. -/
def Candidate.firstMatch (oracle : GuardOracle) : Nat → List GuardCall → List Candidate → Run
  | _, calls, [] => ⟨calls, .ok .noMatch⟩
  | index, calls, candidate :: others =>
      match candidate.attempt with
      | .error error => ⟨calls, .error error⟩
      | .ok none => firstMatch oracle (index + 1) calls others
      | .ok (some bindings) =>
          match candidate.guard with
          | none => ⟨calls, .ok (.matched index candidate.label bindings)⟩
          | some guard =>
              let call : GuardCall := ⟨guard, bindings⟩
              match oracle calls call with
              | .error error => ⟨calls ++ [call], .error error⟩
              | .ok true => ⟨calls ++ [call], .ok (.matched index candidate.label bindings)⟩
              | .ok false => firstMatch oracle (index + 1) (calls ++ [call]) others

end MatchCompiler
