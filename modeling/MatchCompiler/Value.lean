import MatchCompiler.Types
import MatchCompiler.Const

/-!
# Values

What a match is run on. An object carries its class, named members, the
outputs of its decomposition and the elements behind its indexer.
-/

set_option autoImplicit false

namespace MatchCompiler

inductive ValueKind where
  | null | bool | int | char | string | float | tuple | object
deriving DecidableEq, Repr

def ValueKind.name : ValueKind → String
  | .null => "null"
  | .bool => "bool"
  | .int => "int"
  | .char => "char"
  | .string => "string"
  | .float => "float"
  | .tuple => "tuple"
  | .object => "object"

inductive Value where
  | null
  | bool (value : Bool)
  | int (value : Int)
  | char (value : Char)
  | str (value : Symbol)
  | float (value : Binary64)
  | tuple (elements : List Value)
  | object (type : Ty) (members : List (Symbol × Value)) (components elements : List Value)

namespace Value

def kind : Value → ValueKind
  | .null => .null
  | .bool _ => .bool
  | .int _ => .int
  | .char _ => .char
  | .str _ => .string
  | .float _ => .float
  | .tuple _ => .tuple
  | .object .. => .object

def isNull : Value → Bool
  | .null => true
  | _ => false

def bare (type : Ty) : Value :=
  .object type [] [] []

/-- Adds a member behind the others; anything but an object is unchanged. -/
def withMember (value : Value) (name : Symbol) (member : Value) : Value :=
  match value with
  | .object type members components elements =>
      .object type (members ++ [(name, member)]) components elements
  | other => other

def withComponents (value : Value) (components : List Value) : Value :=
  match value with
  | .object type members _ elements => .object type members components elements
  | other => other

def withElements (value : Value) (elements : List Value) : Value :=
  match value with
  | .object type members components _ => .object type members components elements
  | other => other

def member? (name : Symbol) : Value → Option Value
  | .object _ members _ _ => members.lookup name
  | _ => none

/-- What a decomposition yields: the outputs that an object carries, or the
elements of a tuple. -/
def components? : Value → Option (List Value)
  | .object _ _ components _ => some components
  | .tuple elements => some elements
  | _ => none

def tupleElements? : Value → Option (List Value)
  | .tuple elements => some elements
  | _ => none

/-- What an indexer reads. -/
def elements? : Value → Option (List Value)
  | .object _ _ _ elements => some elements
  | .tuple elements => some elements
  | _ => none

/-- Wraps a value `depth` times in objects that hold it as their only member. -/
def nest (type : Ty) (name : Symbol) : Nat → Value → Value
  | 0, leaf => leaf
  | depth + 1, leaf => .object type [(name, nest type name depth leaf)] [] []

/-- Whether a value passes a comparison with a constant. Floating-point numbers
compare as numbers, except that a NaN passes against a NaN. -/
def equals : Value → Const → Bool
  | .null, .null => true
  | .bool a, .bool b => a == b
  | .int a, .int b => a == b
  | .char a, .char b => a == b
  | .str a, .str b => a == b
  | .float a, .float b => a.numEq b || a.isNaN && b.isNaN
  | _, _ => false

mutual

/-- Equality part by part, in which floating-point numbers compare as numbers,
so that a value with a NaN in it differs from itself. -/
def alike : Value → Value → Bool
  | .null, .null => true
  | .bool a, .bool b => a == b
  | .int a, .int b => a == b
  | .char a, .char b => a == b
  | .str a, .str b => a == b
  | .float a, .float b => a.numEq b
  | .tuple as, .tuple bs => alikeList as bs
  | .object type members components elements, .object type' members' components' elements' =>
      type == type' && alikeMembers members members' &&
        alikeList components components' && alikeList elements elements'
  | _, _ => false

def alikeList : List Value → List Value → Bool
  | [], [] => true
  | a :: as, b :: bs => alike a b && alikeList as bs
  | _, _ => false

def alikeMembers : List (Symbol × Value) → List (Symbol × Value) → Bool
  | [], [] => true
  | (name, a) :: as, (name', b) :: bs => name == name' && alike a b && alikeMembers as bs
  | _, _ => false

end

end Value

end MatchCompiler
