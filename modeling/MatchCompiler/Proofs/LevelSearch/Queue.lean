import MatchCompiler.Proofs.LevelSearch

/-!
# Levels and queues

A search that takes one item at a time from a queue, and puts what it discovers
behind the others, visits the items level by level.
-/

set_option autoImplicit false

namespace MatchCompiler

namespace LevelSearch

variable {α : Type} {search : LevelSearch α} {front back visited : List α} {seen : Array Bool}

/-- What a queue is worked off to, item by item. -/
inductive Drains (search : LevelSearch α) : List α → Array Bool → List α → Prop
  | nil (seen : Array Bool) : Drains search [] seen []
  | cons {item : α} {queue visited : List α} {seen : Array Bool}
      (rest : Drains search (queue ++ (search.discover (search.onward item) seen).1)
        (search.discover (search.onward item) seen).2 visited) :
      Drains search (item :: queue) seen (item :: visited)

theorem discover_append (first second : List α) : ∀ seen : Array Bool,
    search.discover (first ++ second) seen =
      ((search.discover first seen).1 ++
          (search.discover second (search.discover first seen).2).1,
        (search.discover second (search.discover first seen).2).2) := by
  induction first with
  | nil => exact fun _ => rfl
  | cons item rest ih =>
      intro seen
      rw [List.cons_append, discover, discover]
      split
      · rw [ih]
        rfl
      · exact ih seen

/-- The items in front are taken before all that they lead to. -/
theorem Drains.level
    (rest : search.Drains (back ++ (search.discover (front.flatMap search.onward) seen).1)
      (search.discover (front.flatMap search.onward) seen).2 visited) :
    search.Drains (front ++ back) seen (front ++ visited) := by
  induction front generalizing back seen with
  | nil =>
      rw [List.flatMap_nil, discover, List.append_nil] at rest
      exact rest
  | cons item front ih =>
      rw [List.flatMap_cons, discover_append, ← List.append_assoc] at rest
      rw [List.cons_append, List.cons_append]
      refine .cons ?_
      rw [List.append_assoc]
      exact ih rest

theorem Drains.whole
    (rest : search.Drains (search.discover (front.flatMap search.onward) seen).1
      (search.discover (front.flatMap search.onward) seen).2 visited) :
    search.Drains front seen (front ++ visited) := by
  rw [← List.nil_append (search.discover _ _).1] at rest
  have drains := rest.level
  rwa [List.append_nil] at drains

theorem drains_levels (fuel : Nat) : ∀ {level : List α} {seen : Array Bool},
    seen.count false ≤ fuel → search.Drains level seen (search.levels fuel level seen) := by
  induction fuel with
  | zero =>
      intro level seen enough
      have noneLeft := (search.discovered (level.flatMap search.onward) seen).counted
      have nothing : (search.discover (level.flatMap search.onward) seen).1 = [] :=
        List.length_eq_zero_iff.mp (by omega)
      have drains : search.Drains level seen (level ++ []) := by
        apply Drains.whole
        rw [nothing]
        exact .nil _
      rw [List.append_nil] at drains
      cases level <;> exact drains
  | succ fuel ih =>
      intro level seen enough
      cases level with
      | nil => exact .nil seen
      | cons first rest =>
          have counted := (search.discovered ((first :: rest).flatMap search.onward) seen).counted
          apply Drains.whole
          cases isNext : (search.discover ((first :: rest).flatMap search.onward) seen).1 with
          | nil =>
              rw [levels_nil]
              exact .nil _
          | cons next others =>
              rw [isNext, List.length_cons] at counted
              exact ih (by omega)

/-- A queue that starts with the first level is worked off to all visits. -/
theorem drains_visits (search : LevelSearch α) (start : List α) :
    search.Drains (search.discover start (Array.replicate search.size false)).1
      (search.discover start (Array.replicate search.size false)).2 (search.visits start) := by
  have counted := (search.discovered start (Array.replicate search.size false)).counted
  rw [Array.count_replicate_self] at counted
  exact drains_levels search.size (by omega)

end LevelSearch

end MatchCompiler
