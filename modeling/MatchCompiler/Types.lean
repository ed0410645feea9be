/-!
# Static types

A type is an opaque handle. All that the compiler ever asks about types is how
a conversion between two of them turns out, and whether a type admits null;
`TypeOracle` is the record of these two answers.
-/

set_option autoImplicit false

namespace MatchCompiler

structure Ty where
  index : Nat
deriving DecidableEq, Hashable, Repr, Inhabited

def Ty.render (type : Ty) : String :=
  "TypeId(" ++ toString type.index ++ ")"

/-- How the conversion of a value that is not null turns out. -/
inductive Conversion where
  | always
  | never
  /-- Only a test on the value itself can tell. -/
  | tested
deriving DecidableEq, Repr

structure TypeOracle where
  classify : Ty → Ty → Conversion
  canBeNull : Ty → Bool

/-- Single answers put in front of an oracle's own. The first entry that
applies wins. -/
def TypeOracle.override (types : TypeOracle)
    (conversions : List ((Ty × Ty) × Conversion)) (nullability : List (Ty × Bool)) :
    TypeOracle where
  classify source target := (conversions.lookup (source, target)).getD (types.classify source target)
  canBeNull type := (nullability.lookup type).getD (types.canBeNull type)

end MatchCompiler
