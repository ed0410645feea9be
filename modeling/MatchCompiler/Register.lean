import Std.Data.ExtHashMap

/-!
# Registers

Entries that are numbered in the order in which they come in, with a map in which
the number of each of them is looked up.
-/

set_option autoImplicit false

namespace MatchCompiler

/-- Entries in the order of their numbers, and the number under which each of them
is found. -/
structure Register (α : Type) [BEq α] [Hashable α] where
  entries : List α
  numbers : Std.ExtHashMap α Nat

namespace Register

variable {α : Type} [BEq α] [LawfulBEq α] [Hashable α]

def empty : Register α :=
  ⟨[], ∅⟩

def intern (register : Register α) (entry : α) : Nat × Register α :=
  match register.numbers[entry]? with
  | some number => (number, register)
  | none =>
      (register.entries.length,
        ⟨register.entries ++ [entry], register.numbers.insert entry register.entries.length⟩)

/-- Indexes a list. An entry that it holds more than once is found where it comes
first. -/
def ofEntries (entries : List α) : Register α :=
  ⟨entries, entries.zipIdx.foldl (fun numbers entry => numbers.insertIfNew entry.1 entry.2) ∅⟩

end Register

end MatchCompiler
