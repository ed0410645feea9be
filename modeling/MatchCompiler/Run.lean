import MatchCompiler.DecisionGraph
import MatchCompiler.Value

/-!
# Runs

How a match can end: an arm that is taken with its variables, no match, or a
failure. A failed match is no failure; failures come from values that lack the
shape their static types promise, from malformed graphs, and from guards. Guards
are put to an oracle, which may answer by all that it was asked before.
-/

set_option autoImplicit false

namespace MatchCompiler

/-- What an access can be applied to. -/
inductive Demand where
  | decomposable | tuple | indexable
deriving DecidableEq, Repr

def Demand.describe : Demand → String
  | .decomposable => "a decomposable value"
  | .tuple => "a tuple"
  | .indexable => "an indexable value"

inductive WalkError where
  | unknownNode (node : NodeId)
  | unknownAccess (access : Access)
  | emptySlot (temp : Temp)
  | nullInput (access : Access)
  | wrongKind (access : Access) (demand : Demand) (found : ValueKind)
  | noMember (name : Symbol)
  | wrongArity (expected found : Nat)
  | outOfBounds (position length : Nat)
  | noLeafWithin (steps : Nat)
  | noFallthrough (arm : Nat)
  | guardFailed (guard : Guard) (reason : String)
deriving DecidableEq, Repr

def WalkError.message : WalkError → String
  | .unknownNode node => "node " ++ node.render ++ " is not in the DAG"
  | .unknownAccess access => "evaluation " ++ access.render ++ " is not in the value table"
  | .emptySlot temp => "temp " ++ temp.render ++ " was read before any evaluation produced it"
  | .nullInput access => "evaluation " ++ access.render ++ " applied to null"
  | .wrongKind access demand found =>
      "expected " ++ demand.describe ++ " for evaluation " ++ access.render ++ ", found " ++
        found.name
  | .noMember name => "value has no member " ++ name.render
  | .wrongArity expected found =>
      "decomposition produced " ++ toString found ++ " values, pattern expects " ++
        toString expected
  | .outOfBounds position length =>
      "index " ++ toString position ++ " out of bounds for length " ++ toString length
  | .noLeafWithin steps => "walk did not reach a leaf within " ++ toString steps ++ " steps"
  | .noFallthrough arm => "guard node for case " ++ toString arm ++ " has no fallthrough"
  | .guardFailed guard reason => "guard " ++ guard.render ++ " failed: " ++ reason

structure GuardCall where
  guard : Guard
  bindings : List (Symbol × Value)

/-- Answers a call of a guard, given all calls before it, the first one first. -/
abbrev GuardOracle := List GuardCall → GuardCall → Except WalkError Bool

/-- The oracle that looks at the call alone. -/
def GuardOracle.ofFunction (answer : Guard → List (Symbol × Value) → Except WalkError Bool) :
    GuardOracle :=
  fun _ call => answer call.guard call.bindings

inductive Outcome where
  | matched (arm : Nat) (label : Label) (bindings : List (Symbol × Value))
  | noMatch

/-- How a match ended, and the guards that were called, the first one first. -/
structure Run where
  calls : List GuardCall
  result : Except WalkError Outcome

end MatchCompiler
