import MatchCompiler.Hierarchy
import MatchCompiler.Pattern

/-!
# Temps and accesses

A temp names a value that can be reached from the match input by a chain of
accesses. Temps and accesses are interned, so that two patterns which ask for
the same thing get the same number; the number of a temp is also the slot that
holds its value while a match runs.
-/

set_option autoImplicit false

namespace MatchCompiler

structure Temp where
  index : Nat
deriving DecidableEq, Hashable, Repr

def Temp.render (temp : Temp) : String :=
  "TempId(" ++ toString temp.index ++ ")"

/-- The match input. -/
def Temp.root : Temp := ⟨0⟩

structure Access where
  index : Nat
deriving DecidableEq, Hashable, Repr

def Access.render (access : Access) : String :=
  "EvalId(" ++ toString access.index ++ ")"

/-- What an access does to its input. -/
inductive AccessKind where
  /-- The same value, seen at another type. -/
  | cast (type : Ty)
  /-- A call of a decomposition method with `arity` outputs. Calls with
  different owners are kept apart. -/
  | deconstruct (method : Symbol) (arity : Nat) (owner : Option Nat)
  | field (name : Symbol)
  | property (name : Symbol)
  | component (position : Nat)
  | element (position : Nat)
deriving DecidableEq, Hashable, Repr

def AccessKind.ofMember : Member → AccessKind
  | .field name => .field name
  | .property name => .property name

def AccessKind.outputCount : AccessKind → Nat
  | .deconstruct _ arity _ => arity
  | _ => 1

structure AccessEntry where
  input : Temp
  kind : AccessKind
deriving DecidableEq, Hashable, Repr

/-- Output `output` of the access `source`, seen at a static type. The match
input has no source. -/
structure TempEntry where
  type : Ty
  source : Option Access
  output : Nat
deriving DecidableEq, Hashable, Repr

/-- Temps and accesses in the order of their numbers. -/
structure AccessTable where
  temps : List TempEntry
  accesses : List AccessEntry
deriving DecidableEq, Repr

namespace AccessTable

/-- The table with the match input only. -/
def ofInput (type : Ty) : AccessTable :=
  ⟨[⟨type, none, 0⟩], []⟩

def temp? (table : AccessTable) (temp : Temp) : Option TempEntry :=
  table.temps[temp.index]?

def access? (table : AccessTable) (access : Access) : Option AccessEntry :=
  table.accesses[access.index]?

/-- The number of an access; a new one is put at the end of the table. -/
def access (table : AccessTable) (input : Temp) (kind : AccessKind) : Access × AccessTable :=
  match table.accesses.idxOf? ⟨input, kind⟩ with
  | some index => (⟨index⟩, table)
  | none => (⟨table.accesses.length⟩, { table with accesses := table.accesses ++ [⟨input, kind⟩] })

/-- The number of one output of an access, seen at a static type. -/
def output (table : AccessTable) (source : Access) (output : Nat) (type : Ty) :
    Temp × AccessTable :=
  match table.temps.idxOf? ⟨type, some source, output⟩ with
  | some index => (⟨index⟩, table)
  | none =>
      (⟨table.temps.length⟩, { table with temps := table.temps ++ [⟨type, some source, output⟩] })

/-- Static type of a temp. An unknown temp is taken for the match input. -/
def typeOf (table : AccessTable) (temp : Temp) : Ty :=
  (((table.temp? temp).or table.temps.head?).map (·.type)).getD Hierarchy.object

def outputsOf (table : AccessTable) (access : Access) : List Temp :=
  (table.temps.zipIdx.filter fun entry => entry.1.source == some access).map fun entry => ⟨entry.2⟩

/-- At most `fuel` accesses back from a temp, the outermost first. -/
def pathWithin (table : AccessTable) : Nat → Temp → List (Access × Nat)
  | 0, _ => []
  | fuel + 1, temp =>
      match table.temp? temp with
      | some ⟨_, some source, output⟩ =>
          match table.access? source with
          | some entry => table.pathWithin fuel entry.input ++ [(source, output)]
          | none => [(source, output)]
      | _ => []

/-- The accesses that lead from the match input to a temp. A chain that does
not repeat itself is no longer than the table. -/
def pathTo (table : AccessTable) (temp : Temp) : List (Access × Nat) :=
  table.pathWithin table.temps.length temp

end AccessTable

end MatchCompiler
