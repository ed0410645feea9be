import MatchCompiler.Pattern

/-!
# How large patterns may be

Positional parts are numbered with 32 bits, and where one call yields all of them
their count needs 32 bits as well. A pattern with fewer nodes than there are such
numbers has nowhere too many parts.
-/

set_option autoImplicit false

namespace MatchCompiler

def Shape.capacity : Shape → Nat
  | .method _ => 0xffffffff
  | .tuple | .indexed .. => 0x100000000

namespace Pattern

mutual

def size : Pattern → Nat
  | .discard _ | .var .. | .typed .. | .constant .. => 1
  | .compound _ _ none members _ => 1 + memberSize members
  | .compound _ _ (some (_, parts)) members _ => 1 + partSize parts + memberSize members

def partSize : List Pattern → Nat
  | [] => 0
  | part :: parts => size part + partSize parts

def memberSize : List (Member × Pattern) → Nat
  | [] => 0
  | (_, pattern) :: members => size pattern + memberSize members

end

mutual

/-- No pattern in a tree has more parts than there are numbers for. -/
def Countable : Pattern → Prop
  | .discard _ | .var .. | .typed .. | .constant .. => True
  | .compound _ _ none members _ => MembersCountable members
  | .compound _ _ (some (shape, parts)) members _ =>
      parts.length ≤ shape.capacity ∧ PartsCountable parts ∧ MembersCountable members

def PartsCountable : List Pattern → Prop
  | [] => True
  | part :: parts => Countable part ∧ PartsCountable parts

def MembersCountable : List (Member × Pattern) → Prop
  | [] => True
  | (_, pattern) :: members => Countable pattern ∧ MembersCountable members

end

theorem size_pos (pattern : Pattern) : 0 < pattern.size := by
  cases pattern with
  | compound input declared positional members name =>
      cases positional <;> (simp only [size]; omega)
  | _ => exact Nat.one_pos

theorem length_le_partSize (parts : List Pattern) : parts.length ≤ partSize parts := by
  induction parts with
  | nil => exact Nat.le_refl 0
  | cons part parts ih =>
      have positive := part.size_pos
      simp only [List.length_cons, partSize]
      omega

mutual

theorem countable_of_size_lt : ∀ pattern : Pattern, pattern.size < 0x100000000 → pattern.Countable
  | .discard _, _ | .var .., _ | .typed .., _ | .constant .., _ => by simp only [Countable]
  | .compound _ _ none members _, few => by
      simp only [size] at few
      simp only [Countable]
      exact membersCountable_of_size_lt members (by omega)
  | .compound _ _ (some (shape, parts)) members _, few => by
      simp only [size] at few
      have length := length_le_partSize parts
      simp only [Countable]
      refine ⟨?_, partsCountable_of_size_lt parts (by omega),
        membersCountable_of_size_lt members (by omega)⟩
      cases shape <;> (simp only [Shape.capacity]; omega)

theorem partsCountable_of_size_lt :
    ∀ parts : List Pattern, partSize parts < 0x100000000 → PartsCountable parts
  | [], _ => by simp only [PartsCountable]
  | part :: parts, few => by
      simp only [partSize] at few
      simp only [PartsCountable]
      exact ⟨countable_of_size_lt part (by omega), partsCountable_of_size_lt parts (by omega)⟩

theorem membersCountable_of_size_lt :
    ∀ members : List (Member × Pattern), memberSize members < 0x100000000 → MembersCountable members
  | [], _ => by simp only [MembersCountable]
  | (_, pattern) :: members, few => by
      simp only [memberSize] at few
      simp only [MembersCountable]
      exact ⟨countable_of_size_lt pattern (by omega), membersCountable_of_size_lt members (by omega)⟩

end

end Pattern

end MatchCompiler
