import MatchCompiler.AccessTable
import MatchCompiler.Typing

/-!
# Tests and steps

A test is a yes-or-no question about one temp. What a pattern demands of its
input is a list of steps, each of them a test or an access.
-/

set_option autoImplicit false

namespace MatchCompiler

inductive Predicate where
  | nonNull
  /-- Asked for by a null constant. -/
  | isNull
  /-- Not null, and an instance of the type. -/
  | ofType (type : Ty)
  | equals (value : Const)
  /-- Never true: the pattern cannot match a value of the static type. -/
  | never
deriving DecidableEq, Hashable, Repr

def Predicate.holds (typing : Typing) (value : Value) : Predicate → Bool
  | .nonNull => !value.isNull
  | .isNull => value.isNull
  | .ofType type => typing.isInstance value type
  | .equals constant => value.equals constant
  | .never => false

structure Test where
  subject : Temp
  predicate : Predicate
deriving DecidableEq, Hashable, Repr

inductive Step where
  | test (test : Test)
  | access (access : Access)
deriving DecidableEq, Hashable, Repr

def Step.isTest : Step → Bool
  | .test _ => true
  | .access _ => false

/-- A pattern variable and the temp whose value it gets. -/
structure Binding where
  name : Symbol
  temp : Temp
deriving DecidableEq, Hashable, Repr

end MatchCompiler
