import MatchCompiler.Symbol

/-!
# Constants

The constants that a pattern can compare with. Floating-point constants are
kept as bit patterns, so that two of them are equal exactly when they are
written alike; what they say about a number is a second question, answered by
`Const.sameValue?`.
-/

set_option autoImplicit false

namespace MatchCompiler

structure Binary64 where
  bits : UInt64
deriving DecidableEq, Hashable, Repr

namespace Binary64

/-- The bits without the sign. -/
def magnitude (x : Binary64) : UInt64 :=
  x.bits &&& 0x7fffffffffffffff

/-- Exponent bits all set and some bit behind them. -/
def isNaN (x : Binary64) : Bool :=
  x.magnitude > 0x7ff0000000000000

def isZero (x : Binary64) : Bool :=
  x.magnitude == 0

/-- Equality of numbers: the zeros are equal, a NaN equals nothing. -/
def numEq (x y : Binary64) : Bool :=
  !x.isNaN && !y.isNaN && (x == y || x.isZero && y.isZero)

end Binary64

inductive Const where
  | null
  | bool (value : Bool)
  | int (value : Int)
  | char (value : Char)
  | str (value : Symbol)
  | float (value : Binary64)
deriving DecidableEq, Repr

namespace Const

/-- Characters are hashed by their code points. -/
instance : Hashable Const where
  hash
    | .null => 0
    | .bool value => mixHash 1 (hash value)
    | .int value => mixHash 2 (hash value)
    | .char value => mixHash 3 (hash value.toNat)
    | .str value => mixHash 4 (hash value)
    | .float value => mixHash 5 (hash value)

def isNull : Const → Bool
  | .null => true
  | _ => false

/-- Constants that a jump table can dispatch on. -/
def isSwitchable : Const → Bool
  | .bool _ | .int _ | .char _ | .str _ => true
  | .null | .float _ => false

/-- Whether equality with one constant is equality with the other. Undecided
where equal numbers can have different bits, or a number can differ from
itself. -/
def sameValue? : Const → Const → Option Bool
  | .float x, .float y =>
      if x.isNaN || y.isNaN || x.isZero && y.isZero then none else some (x == y)
  | c, d => some (c == d)

end Const

end MatchCompiler
