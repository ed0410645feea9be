import MatchCompiler.Options
import MatchCompiler.Test

/-!
# Checklists

A pattern tree laid out as a list of steps, in an order in which they can be
carried out: the null test before the type test, the type test before the cast,
an access before the tests on what it yields. The access table grows along the
way; that is how patterns come to share temps.
-/

set_option autoImplicit false

namespace MatchCompiler

/-- All that one arm demands. It matches where every test passes. -/
structure Checklist where
  /-- Position among the arms; the lower one wins. -/
  index : Nat
  steps : List Step
  bindings : List Binding
  guard : Option Guard
  label : Label
deriving DecidableEq, Repr

def Checklist.testCount (checklist : Checklist) : Nat :=
  checklist.steps.countP Step.isTest

structure Fragment where
  steps : List Step
  bindings : List Binding
deriving DecidableEq, Repr

namespace Fragment

def empty : Fragment := ⟨[], []⟩

def append (front back : Fragment) : Fragment :=
  ⟨front.steps ++ back.steps, front.bindings ++ back.bindings⟩

instance : Append Fragment := ⟨append⟩

def after (fragment : Fragment) (steps : List Step) : Fragment :=
  ⟨steps ++ fragment.steps, fragment.bindings⟩

def bind (fragment : Fragment) (name : Option Symbol) (temp : Temp) : Fragment :=
  ⟨fragment.steps, fragment.bindings ++ (name.map (⟨·, temp⟩)).toList⟩

end Fragment

/-- Laying out changes the table in place. What was entered stays where it fails. -/
abbrev Laying := ExceptT BuildError (StateM AccessTable)

namespace Laying

variable {α : Type}

/-- What is laid out over a table, and the table that is left. -/
def on (made : Laying α) (table : AccessTable) : Except BuildError α × AccessTable :=
  made.run table

/-- What is laid out, with the table that it needs. -/
def onto (made : Laying α) (table : AccessTable) : Except BuildError (α × AccessTable) :=
  match made.on table with
  | (.ok result, after) => .ok (result, after)
  | (.error error, _) => .error error

/-- Parts are numbered with 32 bits. -/
def count (number : Nat) : Laying Nat :=
  if number ≤ 0xffffffff then return number else throw .partOverflow

/-- A length is compared as a number of 64 bits with a sign. -/
def lengthOf (number : Nat) : Laying Int :=
  if number ≤ 0x7fffffffffffffff then return number else throw .tooLong

end Laying

namespace Pattern

/-- The null test that a value needs before anything is asked of it, none where
its static type excludes null. -/
def nullCheck (types : TypeOracle) (table : AccessTable) (temp : Temp) : List Step :=
  if types.canBeNull (table.typeOf temp) then [.test ⟨temp, .nonNull⟩] else []

def read (input : Temp) (kind : AccessKind) (type : Ty) : Laying (Step × Temp) := do
  let access ← modifyGet fun table => table.access input kind
  let temp ← modifyGet fun table => table.output access 0 type
  return (.access access, temp)

/-- Makes a value usable at another type: the steps, and the temp to go on with.
A conversion that always succeeds needs no step at all, or a null test where
null is not to pass. One that never succeeds leaves a test that never passes. -/
def convert (types : TypeOracle) (strict : Bool) (target : Ty) (input : Temp) :
    Laying (List Step × Temp) := do
  let table ← get
  match types.classify (table.typeOf input) target with
  | .always => return (if strict then nullCheck types table input else [], input)
  | .tested =>
      let (cast, temp) ← read input (.cast target) target
      return (nullCheck types table input ++ [.test ⟨input, .ofType target⟩, cast], temp)
  | .never =>
      let (cast, temp) ← read input (.cast target) target
      return ([.test ⟨input, .never⟩, cast], temp)

/-- The demands that a compound pattern makes before it looks at its parts. -/
def enter (types : TypeOracle) (declared : Option Ty) (input : Temp) :
    Laying (List Step × Temp) :=
  match declared with
  | some type => convert types true type input
  | none => do return (nullCheck types (← get) input, input)

mutual

/-- The checklist of a pattern that examines `input`. Decomposition calls are
made on behalf of `owner`. -/
def flatten (types : TypeOracle) (owner : Option Nat) : Pattern → Temp → Laying Fragment
  | .discard _, _ => return .empty
  | .var _ name, input => return Fragment.empty.bind (some name) input
  | .typed _ declared name, input => do
      let (steps, temp) ← convert types true declared input
      return (Fragment.empty.bind name temp).after steps
  | .constant _ value type, input =>
      if value.isNull then return ⟨[.test ⟨input, .isNull⟩], []⟩
      else do
        let (steps, temp) ← convert types false type input
        return ⟨steps ++ [.test ⟨temp, .equals value⟩], []⟩
  | .compound _ declared none members name, input => do
      let (steps, temp) ← enter types declared input
      let inner ← flattenMembers types owner members temp
      return (inner.bind name temp).after steps
  | .compound _ declared (some (.method method, parts)) members name, input => do
      let (steps, temp) ← enter types declared input
      let arity ← Laying.count parts.length
      let call ← modifyGet fun table => table.access temp (.deconstruct method arity owner)
      let outer ← flattenOutputs types owner call parts 0
      let inner ← flattenMembers types owner members temp
      return ((outer ++ inner).bind name temp).after (steps ++ [.access call])
  | .compound _ declared (some (.tuple, parts)) members name, input => do
      let (steps, temp) ← enter types declared input
      let outer ← flattenReads types owner .component parts 0 temp
      let inner ← flattenMembers types owner members temp
      return ((outer ++ inner).bind name temp).after steps
  | .compound _ declared (some (.indexed length lengthType, parts)) members name, input => do
      let (steps, temp) ← enter types declared input
      let (readLength, measured) ← read temp (.ofMember length) lengthType
      let expected ← Laying.lengthOf parts.length
      let measure := [readLength, .test ⟨measured, .equals (.int expected)⟩]
      let outer ← flattenReads types owner .element parts 0 temp
      let inner ← flattenMembers types owner members temp
      return ((outer ++ inner).bind name temp).after (steps ++ measure)

def flattenOutputs (types : TypeOracle) (owner : Option Nat) (call : Access) :
    List Pattern → Nat → Laying Fragment
  | [], _ => return .empty
  | part :: parts, position => do
      let number ← Laying.count position
      let temp ← modifyGet fun table => table.output call number part.input
      let head ← flatten types owner part temp
      let tail ← flattenOutputs types owner call parts (position + 1)
      return head ++ tail

def flattenReads (types : TypeOracle) (owner : Option Nat) (kind : Nat → AccessKind) :
    List Pattern → Nat → Temp → Laying Fragment
  | [], _, _ => return .empty
  | part :: parts, position, input => do
      let number ← Laying.count position
      let (step, temp) ← read input (kind number) part.input
      let head ← flatten types owner part temp
      let tail ← flattenReads types owner kind parts (position + 1) input
      return (head ++ tail).after [step]

def flattenMembers (types : TypeOracle) (owner : Option Nat) :
    List (Member × Pattern) → Temp → Laying Fragment
  | [], _ => return .empty
  | (member, pattern) :: members, input => do
      let (step, temp) ← read input (.ofMember member) pattern.input
      let head ← flatten types owner pattern temp
      let tail ← flattenMembers types owner members input
      return (head ++ tail).after [step]

end

end Pattern

/-- On whose behalf an arm calls decomposition methods: its own, or everyone's.
An owner is a number of 32 bits. -/
def Sharing.owner (sharing : Sharing) (index : Nat) : Except BuildError (Option Nat) :=
  match sharing with
  | .shared => .ok none
  | .perArm => if index ≤ 0xffffffff then .ok (some index) else .error .armOverflow

/-- The checklist of an arm, which has to examine the match input at its own
type. -/
def Arm.layOut (types : TypeOracle) (sharing : Sharing) (index : Nat) (arm : Arm) :
    Laying Checklist := do
  let input := (← get).typeOf .root
  if arm.pattern.input = input then
    let owner ← liftExcept (sharing.owner index)
    let fragment ← arm.pattern.flatten types owner .root
    return ⟨index, fragment.steps, fragment.bindings, arm.guard, arm.label⟩
  else throw (.inputMismatch index arm.pattern.input input)

def Arm.checklist (types : TypeOracle) (sharing : Sharing) (index : Nat) (arm : Arm)
    (table : AccessTable) : Except BuildError (Checklist × AccessTable) :=
  (arm.layOut types sharing index).onto table

def checklists (types : TypeOracle) (sharing : Sharing) :
    Nat → List Arm → AccessTable → Except BuildError (List Checklist × AccessTable)
  | _, [], table => .ok ([], table)
  | index, arm :: arms, table => do
      let (checklist, table) ← arm.checklist types sharing index table
      let (rest, table) ← checklists types sharing (index + 1) arms table
      return (checklist :: rest, table)

end MatchCompiler
