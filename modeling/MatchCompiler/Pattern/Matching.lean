import MatchCompiler.Compile
import MatchCompiler.FirstMatch

/-!
# Matching without compilation

What a pattern tree means by itself: whether it matches a value, and the values
of its variables if it does. A part that the value does not have does not match.
-/

set_option autoImplicit false

namespace MatchCompiler

namespace Pattern

/-- A variable that may be absent, bound to a value. -/
def named (name : Option Symbol) (value : Value) : List (Symbol × Value) :=
  (name.map (·, value)).toList

/-- Null matches no compound pattern, with or without a declared type. -/
def admits (typing : Typing) (declared : Option Ty) (value : Value) : Bool :=
  match declared with
  | some type => typing.isInstance value type
  | none => !value.isNull

def memberName : Member → Symbol
  | .field name | .property name => name

def positionalValues (shape : Shape) (count : Nat) (value : Value) : Option (List Value) :=
  match shape with
  | .method _ => value.components?.filter (·.length = count)
  | .tuple => value.tupleElements?
  | .indexed length _ =>
      if (value.member? (memberName length)).any (·.equals (.int count)) then value.elements?
      else none

mutual

/-- The variables of a pattern that matches, in the order of
`Pattern.boundNames`. -/
def match? (typing : Typing) : Pattern → Value → Option (List (Symbol × Value))
  | .discard _, _ => some []
  | .var _ name, value => some [(name, value)]
  | .typed _ declared name, value =>
      if typing.isInstance value declared then some (named name value) else none
  | .constant _ wanted type, value =>
      if wanted.isNull then (if value.isNull then some [] else none)
      else if typing.isInstance value type && value.equals wanted then some []
      else none
  | .compound _ declared none members name, value =>
      if admits typing declared value then do
        let inner ← matchMembers? typing members value
        return inner ++ named name value
      else none
  | .compound _ declared (some (shape, parts)) members name, value =>
      if admits typing declared value then do
        let outer ← matchParts? typing parts (← positionalValues shape parts.length value)
        let inner ← matchMembers? typing members value
        return outer ++ inner ++ named name value
      else none

/-- Every part needs a value; values beyond the parts are not looked at. -/
def matchParts? (typing : Typing) : List Pattern → List Value → Option (List (Symbol × Value))
  | [], _ => some []
  | _ :: _, [] => none
  | part :: parts, value :: values => do
      let head ← match? typing part value
      let tail ← matchParts? typing parts values
      return head ++ tail

def matchMembers? (typing : Typing) :
    List (Member × Pattern) → Value → Option (List (Symbol × Value))
  | [], _ => some []
  | (member, pattern) :: members, value => do
      let head ← match? typing pattern (← value.member? (memberName member))
      let tail ← matchMembers? typing members value
      return head ++ tail

end

end Pattern

def Arm.candidate (typing : Typing) (value : Value) (arm : Arm) : Candidate :=
  ⟨arm.label, arm.guard, .ok (arm.pattern.match? typing value)⟩

def Switch.run (typing : Typing) (oracle : GuardOracle) (value : Value) (switch : Switch) : Run :=
  Candidate.firstMatch oracle 0 [] (switch.arms.map (Arm.candidate typing value))

end MatchCompiler
