import MatchCompiler.Test

/-!
# What one test tells about another

Both tests are about the same value. Knowing the outcome of the first can
settle the second, so that a path never asks for a fact that it has already
established.
-/

set_option autoImplicit false

namespace MatchCompiler

namespace Predicate

def nullness : Predicate → Bool → Option Bool
  | .nonNull, outcome => some !outcome
  | .isNull, outcome => some outcome
  | .ofType _, true => some false
  | .equals constant, true => some constant.isNull
  | .equals .null, false => some false
  | _, _ => none

/-- What null answers. -/
def onNull : Predicate → Option Bool
  | .nonNull | .ofType _ => some false
  | .isNull => some true
  | .equals constant => some constant.isNull
  | .never => none

/-- What every value but null answers. -/
def onNonNull : Predicate → Option Bool
  | .nonNull => some true
  | .isNull | .equals .null => some false
  | _ => none

/-- What an outcome about types or constants tells about another test on types
or constants. Where the static type excludes null, a Boolean that is not `true`
is `false`. -/
def related (types : TypeOracle) (nonNullable : Bool) : Predicate → Bool → Predicate → Option Bool
  | .ofType known, true, .ofType asked =>
      match types.classify known asked with
      | .always => some true
      | .never => some false
      | .tested => none
  | .ofType known, false, .ofType asked =>
      if types.classify asked known = .always then some false else none
  | .equals known, true, .equals asked => known.sameValue? asked
  | .equals known, false, .equals asked =>
      match nonNullable, known, asked with
      | true, .bool b, .bool c => some (b != c)
      | _, _, _ => if known.sameValue? asked = some true then some false else none
  | _, _, _ => none

/-- The answer to `asked` once `known` came out as `outcome`, where that settles
it. A test that is never true tells nothing about others, nor they about it. -/
def implied (types : TypeOracle) (nonNullable : Bool) (known : Predicate) (outcome : Bool)
    (asked : Predicate) : Option Bool :=
  if known = asked then some outcome
  else
    match known.nullness outcome with
    | some true => asked.onNull
    | some false => asked.onNonNull.or (related types nonNullable known outcome asked)
    | none => related types nonNullable known outcome asked

end Predicate

end MatchCompiler
