import MatchCompiler.Hierarchy
import MatchCompiler.Value

/-!
# Types of values

What a type test needs to know while a match runs: the type that a value
reports, and which types lie below which.
-/

set_option autoImplicit false

namespace MatchCompiler

structure Typing where
  typeOf : Value → Option Ty
  isSubtype : Ty → Ty → Bool

/-- Null is an instance of nothing. -/
def Typing.isInstance (typing : Typing) (value : Value) (type : Ty) : Bool :=
  !value.isNull && (typing.typeOf value).any fun actual => typing.isSubtype actual type

/-- The types that primitive values report. One without a type passes no type
test. -/
structure PrimitiveTypes where
  bool : Option Ty := none
  int : Option Ty := none
  char : Option Ty := none
  string : Option Ty := none
  float : Option Ty := none
  tuple : Option Ty := none
deriving DecidableEq, Repr

def PrimitiveTypes.typeOf (primitives : PrimitiveTypes) : Value → Option Ty
  | .null => none
  | .bool _ => primitives.bool
  | .int _ => primitives.int
  | .char _ => primitives.char
  | .str _ => primitives.string
  | .float _ => primitives.float
  | .tuple _ => primitives.tuple
  | .object type _ _ _ => some type

/-- Values typed by a hierarchy: objects report their own class. -/
def Hierarchy.typing (hierarchy : Hierarchy) (primitives : PrimitiveTypes) : Typing where
  typeOf := primitives.typeOf
  isSubtype := hierarchy.isSubtype

end MatchCompiler
