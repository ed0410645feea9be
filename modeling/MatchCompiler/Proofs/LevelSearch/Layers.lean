import Mathlib.Data.List.Flatten
import Mathlib.Data.List.Nodup
import MatchCompiler.Proofs.LevelSearch

/-!
# The levels of a search

The levels are numbered from the start, and an item on a level was found from an
item on the level before. What so many steps lead to has its number on a level that
is no further on. So the first item with a property is a nearest one.
-/

set_option autoImplicit false

namespace MatchCompiler

namespace LevelSearch

variable {α : Type} {search : LevelSearch α} {start : List α} {item : α} {depth : Nat}

/-- A level, and the numbers that were met up to it. -/
def layer (search : LevelSearch α) (start : List α) : Nat → List α × Array Bool
  | 0 => search.discover start (Array.replicate search.size false)
  | depth + 1 =>
      let (level, seen) := search.layer start depth
      search.discover (level.flatMap search.onward) seen

theorem layer_succ (search : LevelSearch α) (start : List α) (depth : Nat) :
    search.layer start (depth + 1) =
      search.discover ((search.layer start depth).1.flatMap search.onward)
        (search.layer start depth).2 := rfl

theorem layer_succ_eq_nil (empty : (search.layer start depth).1 = []) :
    (search.layer start (depth + 1)).1 = [] := by
  rw [layer_succ, empty]
  rfl

theorem levels_layer (search : LevelSearch α) (start : List α) (fuel : Nat) :
    ∀ depth, search.levels fuel (search.layer start depth).1 (search.layer start depth).2 =
      (List.range' depth (fuel + 1)).flatMap fun further => (search.layer start further).1 := by
  induction fuel with
  | zero =>
      intro depth
      cases isLevel : (search.layer start depth).1 <;> simp [levels, isLevel]
  | succ fuel ih =>
      intro depth
      rw [List.range'_succ, List.flatMap_cons, ← ih (depth + 1), layer_succ]
      cases isLevel : (search.layer start depth).1 with
      | nil => simp [levels_nil, discover]
      | cons first rest => rfl

theorem visits_eq (search : LevelSearch α) (start : List α) :
    search.visits start =
      (List.range (search.size + 1)).flatMap fun depth => (search.layer start depth).1 := by
  rw [List.range_eq_range']
  exact search.levels_layer start search.size 0

/-! ## What a level holds -/

theorem fresh_discover (search : LevelSearch α) (items : List α) :
    ∀ before : Array Bool, ((search.discover items before).1.map search.number).Nodup ∧
      ∀ item ∈ (search.discover items before).1, before[search.number item]? = some false := by
  induction items with
  | nil => exact fun before => ⟨List.nodup_nil, fun _ member => absurd member List.not_mem_nil⟩
  | cons item rest ih =>
      intro before
      unfold discover
      split
      · rename_i unset
        obtain ⟨distinct, fresh⟩ := ih (before.setIfInBounds (search.number item) true)
        have apart : ∀ other ∈ (search.discover rest
            (before.setIfInBounds (search.number item) true)).1,
            search.number item ≠ search.number other := by
          intro other member same
          have unsetAfter := fresh other member
          rw [← same] at unsetAfter
          simp [(Array.getElem?_eq_some_iff.mp unset).1] at unsetAfter
        refine ⟨?_, ?_⟩
        · refine List.nodup_cons.mpr ⟨fun member => ?_, distinct⟩
          obtain ⟨other, found, same⟩ := List.mem_map.mp member
          exact apart other found same.symm
        · intro other member
          rcases List.mem_cons.mp member with rfl | further
          · exact unset
          · have unsetAfter := fresh other further
            rwa [Array.getElem?_setIfInBounds_ne (apart other further)] at unsetAfter
      · exact ih before

theorem size_layer (search : LevelSearch α) (start : List α) :
    ∀ depth, (search.layer start depth).2.size = search.size
  | 0 => (search.discovered start _).sized.trans (by simp)
  | depth + 1 => (search.discovered _ _).sized.trans (search.size_layer start depth)

theorem number_lt_of_mem_layer (member : item ∈ (search.layer start depth).1) :
    search.number item < search.size := by
  cases depth with
  | zero => simpa using ((search.discovered start _).among item member).2
  | succ depth =>
      have inside := ((search.discovered _ _).among item member).2
      rwa [search.size_layer start depth] at inside

/-- The numbers that are marked are the ones on the levels so far. -/
theorem marked_layer (search : LevelSearch α) (start : List α) (number : Nat) :
    ∀ depth, (search.layer start depth).2[number]? = some true ↔
      ∃ nearer ≤ depth, ∃ item ∈ (search.layer start nearer).1, search.number item = number
  | 0 => by
      rw [layer, (search.discovered start _).marked]
      simp [Array.getElem?_replicate, layer]
  | depth + 1 => by
      rw [layer_succ, (search.discovered _ _).marked, search.marked_layer start number depth,
        ← layer_succ]
      constructor
      · rintro (⟨nearer, le, visited⟩ | visited)
        · exact ⟨nearer, by omega, visited⟩
        · exact ⟨depth + 1, Nat.le_refl _, visited⟩
      · rintro ⟨nearer, le, visited⟩
        rcases Nat.lt_or_eq_of_le le with before | rfl
        · exact Or.inl ⟨nearer, by omega, visited⟩
        · exact Or.inr visited

theorem apart_of_lt {nearer further : Nat} (lt : nearer < further) {first second : α}
    (inFirst : first ∈ (search.layer start nearer).1)
    (inSecond : second ∈ (search.layer start further).1) :
    search.number first ≠ search.number second := by
  obtain ⟨depth, rfl⟩ : ∃ depth, further = depth + 1 := ⟨further - 1, by omega⟩
  intro same
  have unset := (search.fresh_discover _ _).2 second inSecond
  have marked := (search.marked_layer start (search.number second) depth).mpr
    ⟨nearer, by omega, first, inFirst, same⟩
  rw [marked] at unset
  contradiction

theorem nodup_visits (search : LevelSearch α) (start : List α) :
    ((search.visits start).map search.number).Nodup := by
  rw [visits_eq, List.map_flatMap, List.nodup_flatMap]
  constructor
  · intro depth _
    cases depth with
    | zero => exact (search.fresh_discover _ _).1
    | succ depth => exact (search.fresh_discover _ _).1
  · refine List.pairwise_lt_range.imp fun lt => ?_
    intro number inFirst inSecond
    obtain ⟨first, firstFound, rfl⟩ := List.mem_map.mp inFirst
    obtain ⟨second, secondFound, same⟩ := List.mem_map.mp inSecond
    exact apart_of_lt lt firstFound secondFound same.symm

theorem length_visits_le (search : LevelSearch α) (start : List α) :
    (search.visits start).length ≤ search.size := by
  have inside : (search.visits start).map search.number ⊆ List.range search.size := by
    intro number member
    obtain ⟨item, visited, rfl⟩ := List.mem_map.mp member
    rw [visits_eq] at visited
    obtain ⟨depth, _, inLayer⟩ := List.mem_flatMap.mp visited
    exact List.mem_range.mpr (number_lt_of_mem_layer inLayer)
  have short := (search.nodup_visits start).length_le_of_subset inside
  rwa [List.length_map, List.length_range] at short

/-- Each level that is not empty takes a number that is not marked yet. -/
theorem count_layer (search : LevelSearch α) (start : List α) :
    ∀ depth, (search.layer start depth).1 ≠ [] →
      (search.layer start depth).2.count false + depth < search.size
  | 0 => by
      intro someFound
      have counted := (search.discovered start (Array.replicate search.size false)).counted
      have positive := List.length_pos_iff.mpr someFound
      rw [layer] at positive ⊢
      simp only [Array.count_replicate_self] at counted
      omega
  | depth + 1 => by
      intro someFound
      have before := search.count_layer start depth fun empty => someFound (layer_succ_eq_nil empty)
      have counted := (search.discovered ((search.layer start depth).1.flatMap search.onward)
        (search.layer start depth).2).counted
      have positive := List.length_pos_iff.mpr someFound
      rw [layer_succ] at positive ⊢
      omega

theorem depth_lt (member : item ∈ (search.layer start depth).1) : depth < search.size := by
  have counted := search.count_layer start depth (List.ne_nil_of_mem member)
  omega

/-! ## How near an item is -/

/-- Items that so many steps lead to. -/
inductive StepsTo (search : LevelSearch α) (start : List α) : Nat → α → Prop
  | start {first : α} (member : first ∈ start) (inside : search.number first < search.size) :
      StepsTo search start 0 first
  | onward {count : Nat} {before after : α} (steps : StepsTo search start count before)
      (onward : search.Onward before after) : StepsTo search start (count + 1) after

theorem stepsTo_of_mem_layer :
    ∀ {depth : Nat} {item : α}, item ∈ (search.layer start depth).1 →
      search.StepsTo start depth item
  | 0, item, member => by
      obtain ⟨among, inside⟩ := (search.discovered start _).among item member
      exact .start among (by simpa using inside)
  | depth + 1, item, member => by
      obtain ⟨parent, inLayer, onward⟩ :=
        List.mem_flatMap.mp ((search.discovered _ _).among item member).1
      exact .onward (stepsTo_of_mem_layer inLayer) ⟨onward, number_lt_of_mem_layer member⟩

/-- Items with one number have the same numbers behind them. -/
def Uniform (search : LevelSearch α) : Prop :=
  ∀ first second, search.number first = search.number second →
    ∀ next ∈ search.onward first, ∃ other ∈ search.onward second,
      search.number other = search.number next

/-- What so many steps lead to has its number on a level that is no further on. -/
theorem StepsTo.exists_layer (uniform : search.Uniform) {count : Nat}
    (steps : search.StepsTo start count item) :
    ∃ depth ≤ count, ∃ visit ∈ (search.layer start depth).1,
      search.number visit = search.number item := by
  induction steps with
  | @start first member inside =>
      have marked := (search.discovered start (Array.replicate search.size false)).complete first
        member (by simpa using inside)
      exact (search.marked_layer start _ 0).mp marked
  | @onward count before after _ onward ih =>
      obtain ⟨depth, le, visit, inLayer, same⟩ := ih
      obtain ⟨other, otherOnward, otherSame⟩ := uniform before visit same.symm after onward.1
      have marked := (search.discovered ((search.layer start depth).1.flatMap search.onward)
        (search.layer start depth).2).complete other
        (List.mem_flatMap.mpr ⟨visit, inLayer, otherOnward⟩)
        (by rw [search.size_layer start depth, otherSame]; exact onward.2)
      rw [otherSame, ← layer_succ] at marked
      obtain ⟨nearer, nearerLe, visited⟩ := (search.marked_layer start _ (depth + 1)).mp marked
      exact ⟨nearer, by omega, visited⟩

theorem exists_layer_of_find? {property : α → Bool}
    (found : (search.visits start).find? property = some item) :
    ∃ depth, item ∈ (search.layer start depth).1 ∧
      ∀ nearer < depth, ∀ other ∈ (search.layer start nearer).1, property other = false := by
  rw [visits_eq, List.find?_flatMap, List.findSome?_eq_some_iff] at found
  obtain ⟨before, depth, after, isRange, foundHere, nothing⟩ := found
  refine ⟨depth, List.mem_of_find?_eq_some foundHere, fun nearer lt other member => ?_⟩
  have inBefore : nearer ∈ before := by
    have ascending : (before ++ depth :: after).Pairwise (· < ·) := isRange ▸ List.pairwise_lt_range
    have inRange : nearer ∈ before ++ depth :: after := by
      rw [← isRange, List.mem_range]
      exact Nat.lt_trans lt (List.mem_range.mp (isRange ▸ List.mem_append_cons_self))
    rcases List.mem_append.mp inRange with inBefore | here | ⟨_, later⟩
    · exact inBefore
    · exact absurd lt (Nat.lt_irrefl _)
    · have greater := (List.pairwise_cons.mp (List.pairwise_append.mp ascending).2.1).1 nearer later
      omega
  have missing := List.find?_eq_none.mp (nothing nearer inBefore) other member
  simpa using missing

/-- Whatever has the property takes at least as many steps as the first item
that is found to have it. -/
theorem Uniform.nearest_of_find? (uniform : search.Uniform) {property : α → Bool}
    (numbered : ∀ {first second : α}, search.number first = search.number second →
      property first = property second)
    (found : (search.visits start).find? property = some item) :
    ∃ depth, item ∈ (search.layer start depth).1 ∧
      ∀ count other, search.StepsTo start count other → property other = true → depth ≤ count := by
  obtain ⟨depth, member, nothing⟩ := exists_layer_of_find? found
  refine ⟨depth, member, fun count other steps holds => ?_⟩
  obtain ⟨nearer, le, visit, visited, same⟩ := steps.exists_layer uniform
  by_contra far
  have missing := nothing nearer (by omega) visit visited
  rw [numbered same, holds] at missing
  contradiction

end LevelSearch

end MatchCompiler
