import MatchCompiler.Run
import MatchCompiler.Slots

/-!
# Progress of a match

What one action does to a match under way: an access fills slots, a choice looks
at one of them, a binding captures variables, a guard is called.
-/

set_option autoImplicit false

namespace MatchCompiler

def Access.elementAt (access : Access) (demand : Demand) (position : Nat) (value : Value) :
    Option (List Value) → Except WalkError (List Value)
  | none => .error (.wrongKind access demand value.kind)
  | some elements =>
      match elements[position]? with
      | some element => .ok [element]
      | none => .error (.outOfBounds position elements.length)

def Access.outputs (access : Access) (kind : AccessKind) (value : Value) :
    Except WalkError (List Value) :=
  if value.isNull then .error (.nullInput access)
  else
    match kind with
    | .cast _ => .ok [value]
    | .deconstruct _ arity _ =>
        match value.components? with
        | none => .error (.wrongKind access .decomposable value.kind)
        | some parts =>
            if parts.length = arity then .ok parts else .error (.wrongArity arity parts.length)
    | .field name | .property name =>
        match value.member? name with
        | some member => .ok [member]
        | none => .error (.noMember name)
    | .component position => access.elementAt .tuple position value value.tupleElements?
    | .element position => access.elementAt .indexable position value value.elements?

namespace Slots

def ofInput (table : AccessTable) (input : Value) : Slots Value :=
  (Slots.blank table.temps.length).set .root input

def read (slots : Slots Value) (temp : Temp) : Except WalkError Value :=
  match slots.get? temp with
  | some value => .ok value
  | none => .error (.emptySlot temp)

/-- Fills one temp of an access with the output that it names. -/
def fill (table : AccessTable) (outputs : List Value) (slots : Slots Value) (temp : Temp) :
    Except WalkError (Slots Value) :=
  let position := ((table.temp? temp).map (·.output)).getD 0
  match outputs[position]? with
  | some value => .ok (slots.set temp value)
  | none => .error (.outOfBounds position outputs.length)

def perform (table : AccessTable) (access : Access) (slots : Slots Value) :
    Except WalkError (Slots Value) :=
  match table.access? access with
  | none => .error (.unknownAccess access)
  | some entry => do
      let input ← slots.read entry.input
      let outputs ← access.outputs entry.kind input
      (table.outputsOf access).foldlM (fill table outputs) slots

def capture (slots : Slots Value) (bindings : List Binding) :
    Except WalkError (List (Symbol × Value)) :=
  bindings.mapM fun binding => do
    let value ← slots.read binding.temp
    return (binding.name, value)

end Slots

/-- What a walk carries along: the slots, the variables bound last, and the
guard calls so far. -/
structure Progress where
  slots : Slots Value
  bound : List (Symbol × Value)
  calls : List GuardCall

namespace Progress

def start (table : AccessTable) (input : Value) : Progress :=
  ⟨.ofInput table input, [], []⟩

def stop (progress : Progress) (result : Except WalkError Outcome) : Run :=
  ⟨progress.calls, result⟩

end Progress

/-- After one node: further on, or at the end. -/
inductive Advance (target : Type) where
  | proceed (next : target) (progress : Progress)
  | halt (run : Run)

namespace Advance

variable {target : Type}

def access (table : AccessTable) (access : Access) (next : target) (progress : Progress) :
    Advance target :=
  match progress.slots.perform table access with
  | .error error => .halt (progress.stop (.error error))
  | .ok slots => .proceed next { progress with slots }

def choose (subject : Temp) (next : Value → target) (progress : Progress) : Advance target :=
  match progress.slots.read subject with
  | .error error => .halt (progress.stop (.error error))
  | .ok value => .proceed (next value) progress

def bind (bindings : List Binding) (next : target) (progress : Progress) : Advance target :=
  match progress.slots.capture bindings with
  | .error error => .halt (progress.stop (.error error))
  | .ok bound => .proceed next { progress with bound }

/-- Binds variables and calls a guard. A guard that rejects unbinds them. -/
def guard (oracle : GuardOracle) (arm : Nat) (bindings : List Binding) (guard : Guard)
    (accepted : target) (rejected : Option target) (progress : Progress) : Advance target :=
  match progress.slots.capture bindings with
  | .error error => .halt (progress.stop (.error error))
  | .ok bound =>
      let call : GuardCall := ⟨guard, bound⟩
      let asked := { progress with bound, calls := progress.calls ++ [call] }
      match oracle progress.calls call, rejected with
      | .error error, _ => .halt (asked.stop (.error error))
      | .ok true, _ => .proceed accepted asked
      | .ok false, some rejected => .proceed rejected { asked with bound := [] }
      | .ok false, none => .halt (asked.stop (.error (.noFallthrough arm)))

end Advance

end MatchCompiler
