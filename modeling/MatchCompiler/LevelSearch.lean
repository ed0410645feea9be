/-!
# Searches level by level

The items that can be reached from a start by one step after another, the
nearest first. Items are told apart by a number, and each number is visited
once, by the first item that has it.
-/

set_option autoImplicit false

namespace MatchCompiler

structure LevelSearch (α : Type) where
  number : α → Nat
  /-- The items one step further on. -/
  onward : α → List α
  /-- Items whose number is not below this bound are left out. -/
  size : Nat

namespace LevelSearch

variable {α : Type}

def discover (search : LevelSearch α) : List α → Array Bool → List α × Array Bool
  | [], seen => ([], seen)
  | item :: rest, seen =>
      if seen[search.number item]? = some false then
        let (others, seen) := search.discover rest (seen.setIfInBounds (search.number item) true)
        (item :: others, seen)
      else search.discover rest seen

def levels (search : LevelSearch α) : Nat → List α → Array Bool → List α
  | _, [], _ => []
  | 0, level, _ => level
  | fuel + 1, level, seen =>
      let (next, seen) := search.discover (level.flatMap search.onward) seen
      level ++ search.levels fuel next seen

/-- One item for every number that can be reached. Each level has a number that
no level before it has, so there are no more levels than numbers. -/
def visits (search : LevelSearch α) (start : List α) : List α :=
  let (level, seen) := search.discover start (Array.replicate search.size false)
  search.levels search.size level seen

end LevelSearch

end MatchCompiler
