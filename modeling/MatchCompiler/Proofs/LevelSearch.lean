import Mathlib.Logic.Relation
import MatchCompiler.LevelSearch
import MatchCompiler.Proofs.Marks

/-!
# What a search level by level visits

Every visited item can be reached, and the visited items are closed under steps,
up to items with the same number. Where no two items share a number, the visited
items are exactly the ones that can be reached.
-/

set_option autoImplicit false

namespace MatchCompiler

namespace LevelSearch

variable {α : Type} {search : LevelSearch α}

def Onward (search : LevelSearch α) (first second : α) : Prop :=
  second ∈ search.onward first ∧ search.number second < search.size

/-- What `found` has to do with the items that it was found among. -/
structure Discovered (search : LevelSearch α) (items found : List α) (before after : Array Bool) :
    Prop where
  sized : after.size = before.size
  among : ∀ item ∈ found, item ∈ items ∧ search.number item < before.size
  marked : ∀ number, after[number]? = some true ↔
    before[number]? = some true ∨ ∃ item ∈ found, search.number item = number
  complete : ∀ item ∈ items, search.number item < before.size →
    after[search.number item]? = some true
  counted : after.count false + found.length = before.count false

theorem discovered (search : LevelSearch α) (items : List α) :
    ∀ before : Array Bool,
      search.Discovered items (search.discover items before).1 before
        (search.discover items before).2 := by
  induction items with
  | nil =>
      intro before
      exact ⟨rfl, by simp [discover], by simp [discover], by simp, by simp [discover]⟩
  | cons item rest ih =>
      intro before
      unfold discover
      split
      · rename_i unset
        have inside : search.number item < before.size := (Array.getElem?_eq_some_iff.mp unset).1
        have later := ih (before.setIfInBounds (search.number item) true)
        have sized : (before.setIfInBounds (search.number item) true).size = before.size := by simp
        refine ⟨later.sized.trans sized, ?_, ?_, ?_, ?_⟩
        · intro other member
          rcases List.mem_cons.mp member with rfl | inRest
          · exact ⟨List.mem_cons_self, inside⟩
          · obtain ⟨among, otherInside⟩ := later.among other inRest
            exact ⟨List.mem_cons_of_mem _ among, sized ▸ otherInside⟩
        · intro number
          rw [later.marked, Marks.getElem?_mark inside]
          simp only [List.mem_cons, exists_eq_or_imp, or_assoc, @eq_comm _ number]
        · intro other member otherInside
          rcases List.mem_cons.mp member with rfl | inRest
          · exact (later.marked _).mpr (Or.inl ((Marks.getElem?_mark inside _).mpr (Or.inr rfl)))
          · exact later.complete other inRest (sized.symm ▸ otherInside)
        · have oneLess := Marks.count_mark unset
          have counted := later.counted
          rw [← oneLess, ← counted, Nat.add_assoc]
          rfl
      · rename_i notUnset
        have later := ih before
        refine ⟨later.sized, ?_, later.marked, ?_, later.counted⟩
        · exact fun other member =>
            ⟨List.mem_cons_of_mem _ (later.among other member).1, (later.among other member).2⟩
        · intro other member otherInside
          rcases List.mem_cons.mp member with rfl | inRest
          · refine (later.marked _).mpr (Or.inl ?_)
            rw [Array.getElem?_eq_getElem otherInside] at notUnset ⊢
            simpa using notUnset
          · exact later.complete other inRest otherInside

theorem levels_nil (search : LevelSearch α) (fuel : Nat) (seen : Array Bool) :
    search.levels fuel [] seen = [] := by
  cases fuel <;> rfl

theorem subset_levels (search : LevelSearch α) (fuel : Nat) (level : List α) (seen : Array Bool) :
    level ⊆ search.levels fuel level seen := by
  cases level with
  | nil => exact List.nil_subset _
  | cons item rest =>
      cases fuel with
      | zero => exact List.Subset.refl _
      | succ fuel => exact List.subset_append_left _ _

theorem reached_of_mem_levels {item : α} (fuel : Nat) :
    ∀ {level : List α} {seen : Array Bool}, seen.size = search.size →
      item ∈ search.levels fuel level seen →
      ∃ start ∈ level, Relation.ReflTransGen search.Onward start item := by
  induction fuel with
  | zero =>
      intro level seen _ member
      cases level with
      | nil => exact absurd member List.not_mem_nil
      | cons _ _ => exact ⟨item, member, .refl⟩
  | succ fuel ih =>
      intro level seen sized member
      cases level with
      | nil => exact absurd member List.not_mem_nil
      | cons first rest =>
          rcases List.mem_append.mp member with here | further
          · exact ⟨item, here, .refl⟩
          · have next := search.discovered ((first :: rest).flatMap search.onward) seen
            obtain ⟨middle, found, path⟩ := ih (next.sized.trans sized) further
            obtain ⟨among, inside⟩ := next.among middle found
            obtain ⟨start, inLevel, onward⟩ := List.mem_flatMap.mp among
            exact ⟨start, inLevel, path.head ⟨onward, sized ▸ inside⟩⟩

/-- With a level for every number that is not marked, no step leads away from
what is visited and marked. -/
theorem closed_levels {first second : α} (fuel : Nat) :
    ∀ {level : List α} {seen : Array Bool}, seen.size = search.size → seen.count false ≤ fuel →
      first ∈ search.levels fuel level seen → search.Onward first second →
      seen[search.number second]? = some true ∨
        ∃ visit ∈ search.levels fuel level seen, search.number visit = search.number second := by
  induction fuel with
  | zero =>
      intro level seen sized enough _ onward
      exact Or.inl (Marks.set_of_count_eq_zero (Nat.le_zero.mp enough) (sized ▸ onward.2))
  | succ fuel ih =>
      intro level seen sized enough member onward
      cases level with
      | nil => exact absurd member List.not_mem_nil
      | cons head rest =>
          have next := search.discovered ((head :: rest).flatMap search.onward) seen
          have behind : ∀ {number : Nat},
              (search.discover ((head :: rest).flatMap search.onward) seen).2[number]? = some true →
              seen[number]? = some true ∨
                ∃ visit ∈ search.levels (fuel + 1) (head :: rest) seen,
                  search.number visit = number := by
            intro number marked
            rcases (next.marked number).mp marked with before | ⟨visit, found, same⟩
            · exact Or.inl before
            · exact Or.inr ⟨visit, List.mem_append_right _ (search.subset_levels _ _ _ found), same⟩
          rcases List.mem_append.mp member with here | further
          · exact behind (next.complete second (List.mem_flatMap.mpr ⟨first, here, onward.1⟩)
              (sized.symm ▸ onward.2))
          · have someFound : 0 < (search.discover ((head :: rest).flatMap search.onward)
                seen).1.length := by
              refine List.length_pos_iff.mpr fun noneFound => ?_
              rw [noneFound, levels_nil] at further
              exact absurd further List.not_mem_nil
            have counted := next.counted
            rcases ih (next.sized.trans sized) (by omega) further onward with marked | ⟨visit, visited, same⟩
            · exact behind marked
            · exact Or.inr ⟨visit, List.mem_append_right _ visited, same⟩

theorem reached_of_mem_visits {start : List α} {item : α} (member : item ∈ search.visits start) :
    ∃ first ∈ start, search.number first < search.size ∧
      Relation.ReflTransGen search.Onward first item := by
  have begun := search.discovered start (Array.replicate search.size false)
  obtain ⟨first, found, path⟩ :=
    reached_of_mem_levels search.size (begun.sized.trans (by simp)) member
  obtain ⟨among, inside⟩ := begun.among first found
  exact ⟨first, among, by simpa using inside, path⟩

theorem visited_start {start : List α} {first : α} (member : first ∈ start)
    (inside : search.number first < search.size) :
    ∃ visit ∈ search.visits start, search.number visit = search.number first := by
  have begun := search.discovered start (Array.replicate search.size false)
  have marked := begun.complete first member (by simpa using inside)
  rcases (begun.marked _).mp marked with before | ⟨visit, found, same⟩
  · simp [Array.getElem?_replicate] at before
  · exact ⟨visit, search.subset_levels _ _ _ found, same⟩

theorem visited_onward {start : List α} {first second : α}
    (member : first ∈ search.visits start) (onward : search.Onward first second) :
    ∃ visit ∈ search.visits start, search.number visit = search.number second := by
  have begun := search.discovered start (Array.replicate search.size false)
  have unmarked : (Array.replicate search.size false).count false = search.size := by simp
  have counted := begun.counted
  rcases closed_levels search.size (begun.sized.trans (by simp)) (by omega) member onward with
    marked | visited
  · rcases (begun.marked _).mp marked with before | ⟨visit, found, same⟩
    · simp [Array.getElem?_replicate] at before
    · exact ⟨visit, search.subset_levels _ _ _ found, same⟩
  · exact visited

/-- Items told apart by their numbers are visited if and only if they can be
reached. -/
theorem mem_visits (distinct : Function.Injective search.number) {start : List α} {item : α} :
    item ∈ search.visits start ↔
      ∃ first ∈ start, search.number first < search.size ∧
        Relation.ReflTransGen search.Onward first item := by
  constructor
  · exact reached_of_mem_visits
  · rintro ⟨first, member, inside, path⟩
    induction path with
    | refl =>
        obtain ⟨visit, visited, same⟩ := visited_start member inside
        exact distinct same ▸ visited
    | tail _ onward ih =>
        obtain ⟨visit, visited, same⟩ := visited_onward ih onward
        exact distinct same ▸ visited

end LevelSearch

end MatchCompiler
