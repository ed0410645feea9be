import Mathlib
import MatchCompiler.Proofs.Fact

/-!
# Joins of many facts

What is known on every one of many ways does not depend on the order in which
the ways are joined: it is the one fact that has all of their types in common or
else the static type, and that excludes null if all of them do. Whatever a match
does at a node can be done before the join or after it.
-/

set_option autoImplicit false

namespace MatchCompiler

/-! ## Facts about one value -/

namespace Fact

/-- The fact says what all ways agree on. -/
structure IsJoin (static : Ty) (ways : Set Fact) (fact : Fact) : Prop where
  inhabited : ways.Nonempty
  notNull : fact.nullness = .notNull ↔ ∀ way ∈ ways, way.nullness = .notNull
  type : (∀ way ∈ ways, way.type = fact.type) ∨
    fact.type = static ∧ ∃ one ∈ ways, ∃ other ∈ ways, one.type ≠ other.type

theorem nullness_join_eq_notNull (static : Ty) (mine other : Fact) :
    (mine.join static other).nullness = .notNull ↔
      mine.nullness = .notNull ∧ other.nullness = .notNull := by
  unfold join Nullness.join
  cases mine.nullness <;> cases other.nullness <;> simp

theorem isJoin_singleton (static : Ty) (fact : Fact) : IsJoin static {fact} fact where
  inhabited := Set.singleton_nonempty fact
  notNull := by simp
  type := Or.inl (by simp)

namespace IsJoin

variable {static target : Ty} {ways others : Set Fact} {fact other : Fact}

theorem join (mine : IsJoin static ways fact) (yours : IsJoin static others other) :
    IsJoin static (ways ∪ others) (fact.join static other) where
  inhabited := mine.inhabited.inl
  notNull := by
    rw [nullness_join_eq_notNull, mine.notNull, yours.notNull]
    simp only [Set.mem_union, or_imp, forall_and]
  type := by
    unfold Fact.join
    dsimp only
    rcases mine.type with common | ⟨isStatic, one, inWays, another, alsoIn, differ⟩
    · rcases yours.type with commonToo | ⟨isStatic, one, inOthers, another, alsoIn, differ⟩
      · split
        · rename_i same
          refine Or.inl fun way member => ?_
          rcases member with inWays | inOthers
          · exact common way inWays
          · rw [same]
            exact commonToo way inOthers
        · rename_i apart
          obtain ⟨one, inWays⟩ := mine.inhabited
          obtain ⟨another, inOthers⟩ := yours.inhabited
          refine Or.inr ⟨rfl, one, Or.inl inWays, another, Or.inr inOthers, ?_⟩
          rw [common one inWays, commonToo another inOthers]
          exact apart
      · refine Or.inr ⟨?_, one, Or.inr inOthers, another, Or.inr alsoIn, differ⟩
        split
        · rename_i same
          rw [same, isStatic]
        · rfl
    · refine Or.inr ⟨?_, one, Or.inl inWays, another, Or.inl alsoIn, differ⟩
      split
      · exact isStatic
      · rfl

theorem unique (one : IsJoin static ways fact) (two : IsJoin static ways other) :
    fact = other := by
  have sameNullness : fact.nullness = other.nullness := by
    have agree := one.notNull.trans two.notNull.symm
    revert agree
    cases fact.nullness <;> cases other.nullness <;> simp
  have sameType : fact.type = other.type := by
    obtain ⟨way, member⟩ := one.inhabited
    rcases one.type with common | ⟨isStatic, first, inWays, second, alsoIn, differ⟩
    · rcases two.type with commonToo | ⟨_, first, inWays, second, alsoIn, differ⟩
      · rw [← common way member, commonToo way member]
      · exact absurd ((common first inWays).trans (common second alsoIn).symm) differ
    · rcases two.type with commonToo | ⟨isStaticToo, _⟩
      · exact absurd ((commonToo first inWays).trans (commonToo second alsoIn).symm) differ
      · rw [isStatic, isStaticToo]
  cases fact
  cases other
  simp_all

theorem setNullness (isJoin : IsJoin static ways fact) (nullness : Nullness) :
    IsJoin static ((fun way : Fact => { way with nullness }) '' ways) { fact with nullness } where
  inhabited := isJoin.inhabited.image _
  notNull := by
    obtain ⟨way, member⟩ := isJoin.inhabited
    simp only [Set.forall_mem_image]
    exact ⟨fun told _ _ => told, fun all => all member⟩
  type := by
    refine isJoin.type.imp ?_ ?_
    · intro common
      simpa only [Set.forall_mem_image] using common
    · rintro ⟨isStatic, one, inWays, other, alsoIn, differ⟩
      exact ⟨isStatic, _, Set.mem_image_of_mem _ inWays, _, Set.mem_image_of_mem _ alsoIn, differ⟩

/-- All ways have the type then, so it does not matter which one is static. -/
theorem setType (isJoin : IsJoin static ways fact) (type : Ty) :
    IsJoin target ((fun way : Fact => { way with type }) '' ways) { fact with type } where
  inhabited := isJoin.inhabited.image _
  notNull := by
    simp only [Set.forall_mem_image]
    exact isJoin.notNull
  type := Or.inl (by simp only [Set.forall_mem_image, implies_true])

theorem const (inhabited : ways.Nonempty) (fixed : Fact) :
    IsJoin static ((fun _ => fixed) '' ways) fixed := by
  rw [inhabited.image_const]
  exact isJoin_singleton static fixed

end IsJoin

end Fact

/-- A test leaves a fact alone, or it sets what it tells about null, or it
replaces the fact. -/
theorem Predicate.refine_cases (predicate : Predicate) (outcome : Bool) :
    predicate.refine outcome = id ∨
      (∃ nullness, predicate.refine outcome = fun fact => { fact with nullness }) ∨
      ∃ fixed, predicate.refine outcome = fun _ => fixed := by
  cases predicate with
  | nonNull | isNull | never =>
      cases outcome <;> first | exact Or.inl rfl | exact Or.inr (Or.inl ⟨_, rfl⟩)
  | ofType type =>
      cases outcome with
      | true => exact Or.inr (Or.inr ⟨_, rfl⟩)
      | false => exact Or.inl rfl
  | equals constant =>
      cases outcome with
      | true => exact Or.inr (Or.inl ⟨_, rfl⟩)
      | false => cases constant <;> first | exact Or.inl rfl | exact Or.inr (Or.inl ⟨_, rfl⟩)

theorem Fact.IsJoin.refine {static : Ty} {ways : Set Fact} {fact : Fact}
    (isJoin : Fact.IsJoin static ways fact) (predicate : Predicate) (outcome : Bool) :
    Fact.IsJoin static (predicate.refine outcome '' ways) (predicate.refine outcome fact) := by
  rcases predicate.refine_cases outcome with same | ⟨nullness, sets⟩ | ⟨fixed, replaces⟩
  · rw [same, Set.image_id]
    exact isJoin
  · rw [sets]
    exact isJoin.setNullness nullness
  · rw [replaces]
    exact .const isJoin.inhabited fixed

/-! ## Facts about slots -/

theorem Slots.ext_get? {α : Type} {slots other : Slots α}
    (sameSize : slots.cells.size = other.cells.size)
    (same : ∀ temp, slots.get? temp = other.get? temp) : slots = other := by
  have sameCells : slots.cells = other.cells := by
    refine Array.ext sameSize fun index inside insideToo => ?_
    simpa [get?, inside, insideToo] using same ⟨index⟩
  cases slots
  cases other
  exact congrArg Slots.mk sameCells

namespace Facts

@[simp] theorem size_cells_join (table : AccessTable) (mine others : Facts) :
    (mine.join table others).cells.size = mine.cells.size := by
  simp [join]

theorem get?_join_eq_none (table : AccessTable) (mine others : Facts) (temp : Temp) :
    (mine.join table others).get? temp = none ↔
      mine.get? temp = none ∨ others.get? temp = none := by
  rw [get?_join_eq]
  cases mine.get? temp <;> cases others.get? temp <;> simp

@[simp] theorem size_cells_afterTest (asked : Test) (outcome : Bool) (facts : Facts) :
    (facts.afterTest asked outcome).cells.size = facts.cells.size :=
  Slots.size_cells_update ..

@[simp] theorem size_cells_afterAccess (types : TypeOracle) (table : AccessTable) (made : Access)
    (facts : Facts) : (facts.afterAccess types table made).cells.size = facts.cells.size := by
  have filled : ∀ (outputs : List Temp) (content : Temp → Fact) (facts : Facts),
      (outputs.foldl (fun facts temp => facts.set temp (content temp)) facts).cells.size =
        facts.cells.size := by
    intro outputs content
    induction outputs with
    | nil => exact fun _ => rfl
    | cons output rest ih => exact fun facts => (ih _).trans (Slots.size_cells_set ..)
  unfold afterAccess
  split
  · rfl
  · exact filled _ _ facts

variable {types : TypeOracle} {table : AccessTable} {ways others : Set Facts}
  {facts other : Facts}

def known (ways : Set Facts) (temp : Temp) : Set Fact :=
  {fact | ∃ way ∈ ways, way.get? temp = some fact}

/-- The facts say what all ways agree on. They say nothing about a slot that some
way says nothing about. -/
structure IsJoin (table : AccessTable) (ways : Set Facts) (facts : Facts) : Prop where
  sized : ∀ way ∈ insert facts ways, way.cells.size = table.temps.length
  absent : ∀ temp, facts.get? temp = none ↔ ∃ way ∈ ways, way.get? temp = none
  present : ∀ temp fact, facts.get? temp = some fact →
    Fact.IsJoin (table.typeOf temp) (known ways temp) fact

theorem known_union (ways others : Set Facts) (temp : Temp) :
    known (ways ∪ others) temp = known ways temp ∪ known others temp := by
  ext fact
  simp only [known, Set.mem_union, Set.mem_ofPred_eq, or_and_right, exists_or]

theorem known_image {change : Facts → Facts} {adjust : Fact → Fact} {source temp : Temp}
    (changes : ∀ way ∈ ways, (change way).get? temp = (way.get? source).map adjust) :
    known (change '' ways) temp = adjust '' known ways source := by
  ext fact
  constructor
  · rintro ⟨_, ⟨way, member, rfl⟩, found⟩
    rw [changes way member] at found
    obtain ⟨before, isKnown, rfl⟩ := Option.map_eq_some_iff.mp found
    exact ⟨before, ⟨way, member, isKnown⟩, rfl⟩
  · rintro ⟨before, ⟨way, member, isKnown⟩, rfl⟩
    refine ⟨change way, Set.mem_image_of_mem _ member, ?_⟩
    rw [changes way member, isKnown]
    rfl

theorem known_image_const {change : Facts → Facts} {temp : Temp} {fixed : Fact}
    (inhabited : ways.Nonempty) (changes : ∀ way ∈ ways, (change way).get? temp = some fixed) :
    known (change '' ways) temp = {fixed} := by
  ext fact
  simp only [known, Set.exists_mem_image, Set.mem_ofPred_eq, Set.mem_singleton_iff]
  constructor
  · rintro ⟨way, member, found⟩
    exact (Option.some.inj ((changes way member).symm.trans found)).symm
  · rintro rfl
    obtain ⟨way, member⟩ := inhabited
    exact ⟨way, member, changes way member⟩

theorem isJoin_singleton (sized : facts.cells.size = table.temps.length) :
    IsJoin table {facts} facts where
  sized := by simpa using sized
  absent := by simp
  present := by
    intro temp fact found
    have onlyFact : known {facts} temp = {fact} := by
      ext candidate
      simp [known, found, eq_comm]
    rw [onlyFact]
    exact Fact.isJoin_singleton _ fact

namespace IsJoin

/-- There is a way: nothing is known about a temp that has no cell. -/
theorem inhabited (isJoin : IsJoin table ways facts) : ways.Nonempty := by
  have outside : facts.get? ⟨facts.cells.size⟩ = none := by simp [Slots.get?]
  obtain ⟨way, member, _⟩ := (isJoin.absent _).mp outside
  exact ⟨way, member⟩

theorem sized_self (isJoin : IsJoin table ways facts) :
    facts.cells.size = table.temps.length :=
  isJoin.sized facts (Set.mem_insert facts ways)

theorem join (mine : IsJoin table ways facts) (yours : IsJoin table others other) :
    IsJoin table (ways ∪ others) (facts.join table other) where
  sized := by
    rintro way (rfl | inWays | inOthers)
    · rw [size_cells_join, mine.sized_self]
    · exact mine.sized way (Set.mem_insert_of_mem _ inWays)
    · exact yours.sized way (Set.mem_insert_of_mem _ inOthers)
  absent := by
    intro temp
    rw [get?_join_eq_none, mine.absent, yours.absent]
    simp only [Set.mem_union, or_and_right, exists_or]
  present := by
    intro temp fact found
    obtain ⟨first, second, isFirst, isSecond, rfl⟩ := get?_join table facts other found
    rw [known_union]
    exact (mine.present temp first isFirst).join (yours.present temp second isSecond)

theorem unique (one : IsJoin table ways facts) (two : IsJoin table ways other) :
    facts = other := by
  refine Slots.ext_get? (one.sized_self.trans two.sized_self.symm) fun temp => ?_
  have sameAbsent := (one.absent temp).trans (two.absent temp).symm
  cases isFact : facts.get? temp with
  | none => exact (sameAbsent.mp isFact).symm
  | some fact =>
      cases isOther : other.get? temp with
      | none => simp [isFact, isOther] at sameAbsent
      | some second => rw [(one.present temp fact isFact).unique (two.present temp second isOther)]

/-- What is known about a slot afterwards comes from what was known about one
slot before, on every way alike. -/
theorem present_of_map (isJoin : IsJoin table ways facts) (change : Facts → Facts) (source : Temp)
    (adjust : Fact → Fact) {temp : Temp} {fact : Fact}
    (changes : ∀ way ∈ insert facts ways, (change way).get? temp = (way.get? source).map adjust)
    (adjusts : ∀ before, Fact.IsJoin (table.typeOf source) (known ways source) before →
      Fact.IsJoin (table.typeOf temp) (adjust '' known ways source) (adjust before))
    (found : (change facts).get? temp = some fact) :
    Fact.IsJoin (table.typeOf temp) (known (change '' ways) temp) fact := by
  rw [changes facts (Set.mem_insert facts ways)] at found
  obtain ⟨before, isBefore, rfl⟩ := Option.map_eq_some_iff.mp found
  rw [known_image fun way member => changes way (Set.mem_insert_of_mem facts member)]
  exact adjusts before (isJoin.present source before isBefore)

theorem present_of_same (isJoin : IsJoin table ways facts) (change : Facts → Facts) {temp : Temp}
    {fact : Fact}
    (same : ∀ way ∈ insert facts ways, (change way).get? temp = way.get? temp)
    (found : (change facts).get? temp = some fact) :
    Fact.IsJoin (table.typeOf temp) (known (change '' ways) temp) fact := by
  refine isJoin.present_of_map change temp id (fun way member => ?_) (fun before isBefore => ?_)
    found
  · rw [same way member, Option.map_id, id]
  · rw [Set.image_id]
    exact isBefore

theorem afterTest (isJoin : IsJoin table ways facts) (asked : Test) (outcome : Bool) :
    IsJoin table ((fun way : Facts => way.afterTest asked outcome) '' ways)
      (facts.afterTest asked outcome) where
  sized := by
    rintro _ (rfl | ⟨way, member, rfl⟩)
    · rw [size_cells_afterTest, isJoin.sized_self]
    · dsimp only
      rw [size_cells_afterTest, isJoin.sized way (Set.mem_insert_of_mem _ member)]
  absent := by
    intro temp
    simp only [Set.exists_mem_image, Facts.afterTest, Slots.get?_update]
    split
    · simpa using isJoin.absent temp
    · exact isJoin.absent temp
  present := by
    intro temp fact found
    by_cases isSubject : temp = asked.subject
    · refine isJoin.present_of_map (·.afterTest asked outcome) temp
        (asked.predicate.refine outcome) (fun way _ => ?_)
        (fun before isBefore => isBefore.refine asked.predicate outcome) found
      exact (Slots.get?_update ..).trans (if_pos isSubject)
    · refine isJoin.present_of_same (·.afterTest asked outcome) (fun way _ => ?_) found
      exact (Slots.get?_update ..).trans (if_neg isSubject)

theorem get?_afterAccess_of_mem (isJoin : IsJoin table ways facts) (types : TypeOracle)
    {made : Access} {entry : AccessEntry} (isEntry : table.access? made = some entry)
    (temp : Temp) : ∀ way ∈ insert facts ways, (way.afterAccess types table made).get? temp =
      if temp ∈ table.outputsOf made then
        some (produced types table entry.kind (way.get? entry.input) temp)
      else way.get? temp := by
  intro way member
  rw [get?_afterAccess_eq isEntry]
  refine if_congr (and_iff_left_of_imp fun isOutput => ?_) rfl rfl
  obtain ⟨declared, isDeclared, _⟩ := AccessTable.mem_outputsOf.mp isOutput
  rw [isJoin.sized way member]
  exact AccessTable.temp?_inside isDeclared

/-- A cast keeps what is known about its input, so it has to be known on every
way. Of other outputs only the static type is known. -/
theorem present_of_output {made : Access} {entry : AccessEntry} {temp : Temp} {fact : Fact}
    (isJoin : IsJoin table ways facts) (isEntry : table.access? made = some entry)
    (supplied : ∀ type, entry.kind = .cast type → ∀ way ∈ ways, way.get? entry.input ≠ none)
    (isOutput : temp ∈ table.outputsOf made)
    (found : (facts.afterAccess types table made).get? temp = some fact) :
    Fact.IsJoin (table.typeOf temp)
      (known ((fun way : Facts => way.afterAccess types table made) '' ways) temp) fact := by
  have yields := isJoin.get?_afterAccess_of_mem types isEntry temp
  simp only [if_pos isOutput] at yields
  by_cases isCast : ∃ type, entry.kind = .cast type
  · obtain ⟨type, isCast⟩ := isCast
    refine isJoin.present_of_map (·.afterAccess types table made) entry.input
      (fun before => { before with type }) (fun way member => ?_)
      (fun before isBefore => isBefore.setType type) found
    have present : way.get? entry.input ≠ none := by
      rcases Set.mem_insert_iff.mp member with rfl | inWays
      · rw [ne_eq, isJoin.absent]
        rintro ⟨other, inWays, isAbsent⟩
        exact supplied type isCast other inWays isAbsent
      · exact supplied type isCast way inWays
    obtain ⟨before, isBefore⟩ := Option.ne_none_iff_exists'.mp present
    rw [yields way member, isBefore, isCast]
    rfl
  · have fixed : ∀ input, produced types table entry.kind input temp =
        .ofStatic types table temp := by
      intro input
      unfold produced
      split
      · rename_i type before isKind
        exact absurd ⟨type, isKind⟩ isCast
      · rfl
    simp only [fixed] at yields
    rw [yields facts (Set.mem_insert facts ways)] at found
    obtain rfl := Option.some.inj found
    rw [known_image_const isJoin.inhabited fun way member =>
      yields way (Set.mem_insert_of_mem facts member)]
    exact Fact.isJoin_singleton _ _

theorem afterAccess {made : Access} (isJoin : IsJoin table ways facts)
    (supplied : ∀ entry type, table.access? made = some entry → entry.kind = .cast type →
      ∀ way ∈ ways, way.get? entry.input ≠ none) :
    IsJoin table ((fun way : Facts => way.afterAccess types table made) '' ways)
      (facts.afterAccess types table made) := by
  cases isEntry : table.access? made with
  | none =>
      have unchanged : (fun way : Facts => way.afterAccess types table made) = id := by
        funext way
        unfold Facts.afterAccess
        rw [isEntry]
        rfl
      rw [unchanged, Set.image_id]
      exact (congrFun unchanged facts).symm ▸ isJoin
  | some entry =>
      have yields := isJoin.get?_afterAccess_of_mem types isEntry
      refine ⟨?_, fun temp => ?_, fun temp fact found => ?_⟩
      · rintro _ (rfl | ⟨way, member, rfl⟩)
        · rw [size_cells_afterAccess, isJoin.sized_self]
        · dsimp only
          rw [size_cells_afterAccess, isJoin.sized way (Set.mem_insert_of_mem _ member)]
      · rw [Set.exists_mem_image, yields temp facts (Set.mem_insert facts ways)]
        have onWays : (∃ way ∈ ways, (way.afterAccess types table made).get? temp = none) ↔
            ∃ way ∈ ways, temp ∉ table.outputsOf made ∧ way.get? temp = none := by
          refine exists_congr fun way => and_congr_right fun member => ?_
          rw [yields temp way (Set.mem_insert_of_mem _ member)]
          split <;> simp_all
        rw [onWays]
        by_cases isOutput : temp ∈ table.outputsOf made
        · simp [isOutput]
        · simpa [isOutput] using isJoin.absent temp
      · by_cases isOutput : temp ∈ table.outputsOf made
        · exact isJoin.present_of_output isEntry (fun type => supplied entry type isEntry) isOutput found
        · refine isJoin.present_of_same (·.afterAccess types table made) (fun way member => ?_) found
          rw [yields temp way member, if_neg isOutput]

theorem foldl_join (isJoin : IsJoin table ways facts) (rest : List Facts)
    (sized : ∀ way ∈ rest, way.cells.size = table.temps.length) :
    IsJoin table (ways ∪ {way | way ∈ rest}) (rest.foldl (Facts.join table) facts) := by
  induction rest generalizing ways facts with
  | nil => simpa using isJoin
  | cons next rest ih =>
      have onward := isJoin.join (isJoin_singleton (sized next List.mem_cons_self))
      have sameWays : ways ∪ {way | way ∈ next :: rest} = ways ∪ {next} ∪ {way | way ∈ rest} := by
        ext way
        simp only [Set.mem_union, Set.mem_ofPred_eq, List.mem_cons, Set.mem_singleton_iff, or_assoc]
      rw [List.foldl_cons, sameWays]
      exact ih onward fun way member => sized way (List.mem_cons_of_mem _ member)

end IsJoin

end Facts

end MatchCompiler
