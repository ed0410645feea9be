import MatchCompiler.Proofs.Hierarchy

/-!
# Climbing without marks

Whether one type lies above another can be found out with a stack and nothing
else: take a type off it, and put the types directly above in its place. A type
that is reached along several links is then looked at several times, and on a
cycle the search may go on for ever. Without a cycle it comes to an end, because
each type keeps it busy for a number of rounds that the types above it determine.
-/

set_option autoImplicit false

namespace MatchCompiler

namespace Hierarchy

/-- Looks for `super` among the waiting types and all that lie above them, the
latest link first. No answer within that many rounds is `none`. -/
def climb (hierarchy : Hierarchy) (super : Ty) : Nat → List Ty → Option Bool
  | _, [] => some false
  | 0, _ :: _ => none
  | rounds + 1, type :: waiting =>
      if type = super then some true
      else hierarchy.climb super rounds ((hierarchy.supertypes type).reverse ++ waiting)

variable {hierarchy : Hierarchy} {super : Ty}

@[simp] theorem climb_nil (rounds : Nat) : hierarchy.climb super rounds [] = some false := by
  cases rounds <;> rfl

theorem climb_mono (more : Nat) {rounds : Nat} {waiting : List Ty} {answer : Bool}
    (answered : hierarchy.climb super rounds waiting = some answer) :
    hierarchy.climb super (rounds + more) waiting = some answer := by
  fun_induction climb hierarchy super rounds waiting with
  | case1 => rwa [climb_nil]
  | case2 => contradiction
  | case3 rounds waiting =>
      rw [Nat.succ_add, climb, if_pos rfl]
      exact answered
  | case4 rounds type waiting isOther ih =>
      rw [Nat.succ_add, climb, if_neg isOther]
      exact ih answered

theorem climb_append {rounds further : Nat} {earlier later : List Ty} {first second : Bool}
    (front : hierarchy.climb super rounds earlier = some first)
    (back : hierarchy.climb super further later = some second) :
    hierarchy.climb super (rounds + further) (earlier ++ later) = some (first || second) := by
  fun_induction climb hierarchy super rounds earlier with
  | case1 rounds =>
      obtain rfl := Option.some.inj front
      rw [Nat.add_comm]
      exact climb_mono rounds back
  | case2 => contradiction
  | case3 rounds earlier =>
      obtain rfl := Option.some.inj front
      rw [Nat.succ_add, List.cons_append, climb, if_pos rfl]
      rfl
  | case4 rounds type earlier isOther ih =>
      rw [Nat.succ_add, List.cons_append, climb, if_neg isOther, ← List.append_assoc]
      exact ih front

theorem climb_sound {rounds : Nat} {waiting : List Ty} {answer : Bool}
    (answered : hierarchy.climb super rounds waiting = some answer) :
    answer = true ↔ ∃ type ∈ waiting, Relation.ReflTransGen hierarchy.Above type super := by
  fun_induction climb hierarchy super rounds waiting with
  | case1 =>
      obtain rfl := Option.some.inj answered
      simp
  | case2 => contradiction
  | case3 =>
      obtain rfl := Option.some.inj answered
      exact iff_of_true rfl ⟨super, List.mem_cons_self, .refl⟩
  | case4 rounds type waiting isOther ih =>
      rw [ih answered]
      constructor
      · rintro ⟨next, member, path⟩
        rcases List.mem_append.mp member with above | waits
        · exact ⟨type, List.mem_cons_self, .head (List.mem_reverse.mp above) path⟩
        · exact ⟨next, List.mem_cons_of_mem _ waits, path⟩
      · rintro ⟨next, member, path⟩
        rcases List.mem_cons.mp member with rfl | waits
        · -- The type is not the one that is looked for, so the path goes on above it.
          rcases path.cases_head with isSuper | ⟨upper, above, rest⟩
          · exact absurd isSuper isOther
          · exact ⟨upper, List.mem_append_left _ (List.mem_reverse.mpr above), rest⟩
        · exact ⟨next, List.mem_append_right _ waits, path⟩

theorem climb_answers_all (types : List Ty)
    (single : ∀ type ∈ types, ∃ rounds answer, hierarchy.climb super rounds [type] = some answer) :
    ∃ rounds answer, hierarchy.climb super rounds types = some answer := by
  induction types with
  | nil => exact ⟨0, false, rfl⟩
  | cons type rest ih =>
      obtain ⟨rounds, first, front⟩ := single type List.mem_cons_self
      obtain ⟨further, second, back⟩ := ih fun other member =>
        single other (List.mem_cons_of_mem _ member)
      exact ⟨rounds + further, first || second, climb_append front back⟩

/-- Without a cycle the search from a type comes to an end, by induction on what
lies above it. -/
theorem climb_answers (acyclic : ∀ type, ¬ Relation.TransGen hierarchy.Above type type)
    (super type : Ty) : ∃ rounds answer, hierarchy.climb super rounds [type] = some answer := by
  induction type using (wellFounded_above acyclic).induction with
  | _ type ih =>
      obtain ⟨rounds, answer, answered⟩ := climb_answers_all (hierarchy.supertypes type).reverse
        fun upper member => ih upper (List.mem_reverse.mp member)
      by_cases isSuper : type = super
      · exact ⟨1, true, if_pos isSuper⟩
      · refine ⟨rounds + 1, answer, ?_⟩
        rw [climb, if_neg isSuper, List.append_nil]
        exact answered

theorem eq_of_mutual (acyclic : ∀ type, ¬ Relation.TransGen hierarchy.Above type type)
    {first second : Ty} (up : Relation.ReflTransGen hierarchy.Above first second)
    (down : Relation.ReflTransGen hierarchy.Above second first) : first = second := by
  rcases Relation.reflTransGen_iff_eq_or_transGen.mp up with same | proper
  · exact same.symm
  · exact absurd (proper.trans_left down) (acyclic first)

/-- In a hierarchy without a cycle, wherever its links lead, the search without
marks comes to an end for any two types and finds what the search with marks
finds: the one type is the other one or is reached from it along the links. So
types are ordered. -/
theorem subtyping_exact (hierarchy : Hierarchy)
    (acyclic : ∀ type, ¬ Relation.TransGen hierarchy.Above type type) :
    (∀ sub super, ∃ rounds, ∀ granted, rounds ≤ granted →
        hierarchy.climb super granted [sub] = some (hierarchy.isSubtype sub super)) ∧
      (∀ sub super, hierarchy.isSubtype sub super = true ↔
        Relation.ReflTransGen hierarchy.Above sub super) ∧
      (∀ type, hierarchy.isSubtype type type = true) ∧
      (∀ first second third, hierarchy.isSubtype first second = true →
        hierarchy.isSubtype second third = true → hierarchy.isSubtype first third = true) ∧
      ∀ first second, hierarchy.isSubtype first second = true →
        hierarchy.isSubtype second first = true → first = second := by
  refine ⟨fun sub super => ?_, fun _ _ => isSubtype_iff, ?_, ?_, ?_⟩
  · obtain ⟨rounds, answer, answered⟩ := climb_answers acyclic super sub
    have isAnswer : answer = hierarchy.isSubtype sub super := by
      rw [Bool.eq_iff_iff, climb_sound answered, isSubtype_iff]
      simp
    refine ⟨rounds, fun granted enough => ?_⟩
    obtain ⟨more, rfl⟩ := Nat.exists_eq_add_of_le enough
    rw [← isAnswer]
    exact climb_mono more answered
  · exact fun type => isSubtype_iff.mpr .refl
  · intro first second third up further
    exact isSubtype_iff.mpr ((isSubtype_iff.mp up).trans (isSubtype_iff.mp further))
  · intro first second up down
    exact eq_of_mutual acyclic (isSubtype_iff.mp up) (isSubtype_iff.mp down)

/-- A vehicle and a boat lead to a later and to an unknown type, and the boat to the
vehicle twice. -/
def vessels : Hierarchy :=
  ((((((Hierarchy.empty.addClass "Vehicle" (some ⟨3⟩)).2.addClass "Boat" (some ⟨1⟩)).2.implement
    ⟨2⟩ ⟨1⟩).implement ⟨2⟩ ⟨3⟩).implement ⟨2⟩ ⟨9⟩).addInterface "Movable").2

def vesselRank (type : Ty) : Nat :=
  match type.index with
  | 1 => 2
  | 2 => 3
  | 3 => 1
  | _ => 0

theorem subtyping_exact_vessels :
    (∀ type, ¬ Relation.TransGen vessels.Above type type) ∧
      (∃ rounds, ∀ granted, rounds ≤ granted →
        vessels.climb ⟨9⟩ granted [⟨2⟩] = some true) ∧
      (∃ rounds, ∀ granted, rounds ≤ granted →
        vessels.climb ⟨2⟩ granted [⟨1⟩] = some false) ∧
      Relation.ReflTransGen vessels.Above ⟨2⟩ ⟨0⟩ := by
  have table : ∀ index : Fin vessels.size, ∀ upper ∈ vessels.supertypes ⟨index⟩,
      vesselRank upper < vesselRank ⟨index⟩ := by decide
  have acyclic : ∀ type, ¬ Relation.TransGen vessels.Above type type :=
    acyclic_of_falling vesselRank fun above => table ⟨_, above.inside⟩ _ above
  obtain ⟨terminates, closure, _⟩ := subtyping_exact vessels acyclic
  have unknown : vessels.isSubtype ⟨2⟩ ⟨9⟩ = true := by decide
  have downward : vessels.isSubtype ⟨1⟩ ⟨2⟩ = false := by decide
  have root : vessels.isSubtype ⟨2⟩ ⟨0⟩ = true := by decide
  exact ⟨acyclic, unknown ▸ terminates ⟨2⟩ ⟨9⟩, downward ▸ terminates ⟨1⟩ ⟨2⟩,
    (closure _ _).mp root⟩

end Hierarchy

end MatchCompiler
