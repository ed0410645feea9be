import MatchCompiler.Types
import MatchCompiler.Const

/-!
# Patterns

Pattern trees as a type checker hands them over. Every pattern carries the
static type of the value that it examines.
-/

set_option autoImplicit false

namespace MatchCompiler

/-- A condition beside a pattern, known to the compiler by number only. -/
structure Guard where
  index : Nat
deriving DecidableEq, Hashable, Repr

def Guard.render (guard : Guard) : String :=
  "GuardId(" ++ toString guard.index ++ ")"

/-- Where execution goes on after a match. -/
structure Label where
  index : Nat
deriving DecidableEq, Hashable, Repr

inductive Member where
  | field (name : Symbol)
  | property (name : Symbol)
deriving DecidableEq, Hashable, Repr

/-- How the positional parts of a pattern are taken out of a value. -/
inductive Shape where
  /-- One call of a decomposition method yields all parts. -/
  | method (name : Symbol)
  | tuple
  /-- The length member has to equal the number of parts, which are then read
  through the indexer. -/
  | indexed (length : Member) (lengthType : Ty)
deriving DecidableEq, Hashable, Repr

inductive Pattern where
  /-- Matches anything and binds nothing. -/
  | discard (input : Ty)
  /-- Matches anything, null included, and binds it. -/
  | var (input : Ty) (name : Symbol)
  /-- Matches the values of a type, null not among them. -/
  | typed (input declared : Ty) (name : Option Symbol)
  | constant (input : Ty) (value : Const) (type : Ty)
  /-- A type test, positional parts, members and a binding, each of them
  optional. Null never matches. -/
  | compound (input : Ty) (declared : Option Ty) (positional : Option (Shape × List Pattern))
      (members : List (Member × Pattern)) (name : Option Symbol)

namespace Pattern

/-- The null constant, taken at the examined type. -/
def null (input : Ty) : Pattern :=
  .constant input .null input

def input : Pattern → Ty
  | .discard input | .var input _ | .typed input _ _ | .constant input _ _
  | .compound input _ _ _ _ => input

/-- The type at which the parts of a compound pattern see the value. -/
def narrowed? : Pattern → Option Ty
  | .compound input declared _ _ _ => some (declared.getD input)
  | _ => none

def parts? : Pattern → Option (List Pattern)
  | .compound _ _ positional _ _ => positional.map (·.2)
  | _ => none

/-- Wraps a pattern `depth` times in compound patterns with one member. -/
def nest (input : Ty) (member : Member) : Nat → Pattern → Pattern
  | 0, leaf => leaf
  | depth + 1, leaf => .compound input none none [(member, nest input member depth leaf)] none

mutual

/-- The variables bound anywhere in the tree, in the order of their binding:
positional parts, then members, then the pattern's own. -/
def boundNames : Pattern → List Symbol
  | .discard _ | .constant .. => []
  | .var _ name => [name]
  | .typed _ _ name => name.toList
  | .compound _ _ none members name => memberNames members ++ name.toList
  | .compound _ _ (some (_, parts)) members name =>
      partNames parts ++ memberNames members ++ name.toList

def partNames : List Pattern → List Symbol
  | [] => []
  | part :: parts => boundNames part ++ partNames parts

def memberNames : List (Member × Pattern) → List Symbol
  | [] => []
  | (_, pattern) :: members => boundNames pattern ++ memberNames members

end

mutual

def same : Pattern → Pattern → Bool
  | .discard input, .discard input' => input == input'
  | .var input name, .var input' name' => input == input' && name == name'
  | .typed input declared name, .typed input' declared' name' =>
      input == input' && declared == declared' && name == name'
  | .constant input value type, .constant input' value' type' =>
      input == input' && value == value' && type == type'
  | .compound input declared positional members name,
      .compound input' declared' positional' members' name' =>
      input == input' && declared == declared' && name == name' &&
        sameMembers members members' &&
        match positional, positional' with
        | none, none => true
        | some (shape, parts), some (shape', parts') => shape == shape' && sameParts parts parts'
        | _, _ => false
  | _, _ => false

def sameParts : List Pattern → List Pattern → Bool
  | [], [] => true
  | part :: parts, part' :: parts' => same part part' && sameParts parts parts'
  | _, _ => false

def sameMembers : List (Member × Pattern) → List (Member × Pattern) → Bool
  | [], [] => true
  | (member, pattern) :: rest, (member', pattern') :: rest' =>
      member == member' && same pattern pattern' && sameMembers rest rest'
  | _, _ => false

end

end Pattern

structure Arm where
  pattern : Pattern
  guard : Option Guard
  label : Label

end MatchCompiler
