import MatchCompiler.Slots
import MatchCompiler.Test

/-!
# Facts

What is known about the value in a slot at some point of a match: whether it can
be null, and the narrowest type that it is known to have.
-/

set_option autoImplicit false

namespace MatchCompiler

inductive Nullness where
  | notNull
  | maybeNull
deriving DecidableEq, Hashable, Repr

def Nullness.join : Nullness → Nullness → Nullness
  | .notNull, .notNull => .notNull
  | _, _ => .maybeNull

structure Fact where
  nullness : Nullness
  type : Ty
deriving DecidableEq, Hashable, Repr

namespace Fact

/-- What holds on both of two ways. Types that differ fall back to the static
type. -/
def join (static : Ty) (a b : Fact) : Fact :=
  ⟨a.nullness.join b.nullness, if a.type = b.type then a.type else static⟩

def runningJoinFrom (static : Ty) (sofar : Fact) : List Fact → List Fact
  | [] => [sofar]
  | fact :: facts => sofar :: runningJoinFrom static (sofar.join static fact) facts

/-- Joins from left to right: every result on the way, the first fact first. -/
def runningJoin (static : Ty) : List Fact → List Fact
  | [] => []
  | fact :: facts => runningJoinFrom static fact facts

def ofStatic (types : TypeOracle) (table : AccessTable) (temp : Temp) : Fact :=
  let type := table.typeOf temp
  ⟨if types.canBeNull type then .maybeNull else .notNull, type⟩

end Fact

/-- What a test adds to the fact about its subject on either outcome. -/
def Predicate.refine : Predicate → Bool → Fact → Fact
  | .nonNull, true, fact => { fact with nullness := .notNull }
  | .ofType type, true, _ => ⟨.notNull, type⟩
  | .isNull, true, fact => { fact with nullness := .maybeNull }
  | .isNull, false, fact => { fact with nullness := .notNull }
  | .equals constant, true, fact =>
      { fact with nullness := if constant.isNull then .maybeNull else .notNull }
  | .equals .null, false, fact => { fact with nullness := .notNull }
  | _, _, fact => fact

/-- Facts about all slots. A slot whose access was not made on every way has
none. -/
abbrev Facts := Slots Fact

namespace Facts

def initial (types : TypeOracle) (table : AccessTable) : Facts :=
  (Slots.blank table.temps.length).set .root (.ofStatic types table .root)

def join (table : AccessTable) (a b : Facts) : Facts :=
  ⟨a.cells.mapIdx fun index cell =>
    match cell, b.get? ⟨index⟩ with
    | some fact, some other => some (fact.join (table.typeOf ⟨index⟩) other)
    | _, _ => none⟩

/-- What a fresh output of an access is known to be. A cast keeps what is known
about its input. -/
def produced (types : TypeOracle) (table : AccessTable) (kind : AccessKind) (input : Option Fact)
    (temp : Temp) : Fact :=
  match kind, input with
  | .cast type, some fact => { fact with type }
  | _, _ => .ofStatic types table temp

def afterAccess (types : TypeOracle) (table : AccessTable) (access : Access) (facts : Facts) :
    Facts :=
  match table.access? access with
  | none => facts
  | some entry =>
      let input := facts.get? entry.input
      (table.outputsOf access).foldl
        (fun facts temp => facts.set temp (produced types table entry.kind input temp)) facts

def afterTest (test : Test) (outcome : Bool) (facts : Facts) : Facts :=
  facts.update test.subject (test.predicate.refine outcome)

end Facts

end MatchCompiler
