import MatchCompiler.AccessTable.Indexed
import MatchCompiler.Proofs.AccessTable

/-!
# Numbers stand for entries

Whatever a table holds, duplicates among it, and whatever it was asked before, an
inquiry is answered with the first number of what it asks for, and nothing but
what is missing is entered. The index of a table keeps in step with its entries:
at any time it is the one that they would be given anew.
-/

set_option autoImplicit false

namespace MatchCompiler

namespace AccessTable

variable {table before after : AccessTable} {inquiry : Inquiry} {entry : TableEntry}
  {number : TableNumber}

/-! ## Where entries are found -/

def number? (table : AccessTable) : TableEntry → Option TableNumber
  | .access entry => (table.accesses.idxOf? entry).map fun index => .access ⟨index⟩
  | .temp entry => (table.temps.idxOf? entry).map fun index => .temp ⟨index⟩

theorem stored?_of_number? (located : table.number? entry = some number) :
    table.stored? number = some entry := by
  cases entry with
  | access entry =>
      obtain ⟨index, isFirst, rfl⟩ := Option.map_eq_some_iff.mp located
      exact Option.map_eq_some_iff.mpr ⟨entry, getElem?_of_idxOf? isFirst, rfl⟩
  | temp entry =>
      obtain ⟨index, isFirst, rfl⟩ := Option.map_eq_some_iff.mp located
      exact Option.map_eq_some_iff.mpr ⟨entry, getElem?_of_idxOf? isFirst, rfl⟩

theorem exists_number? (holds : table.stored? number = some entry) :
    ∃ first, table.number? entry = some first ∧ first.index ≤ number.index := by
  cases number with
  | access made =>
      obtain ⟨held, found, rfl⟩ := Option.map_eq_some_iff.mp holds
      obtain ⟨first, isFirst, le⟩ := exists_idxOf? found
      exact ⟨.access ⟨first⟩, Option.map_eq_some_iff.mpr ⟨first, isFirst, rfl⟩, le⟩
  | temp filled =>
      obtain ⟨held, found, rfl⟩ := Option.map_eq_some_iff.mp holds
      obtain ⟨first, isFirst, le⟩ := exists_idxOf? found
      exact ⟨.temp ⟨first⟩, Option.map_eq_some_iff.mpr ⟨first, isFirst, rfl⟩, le⟩

theorem number?_eq_none_iff :
    table.number? entry = none ↔ ∀ number, table.stored? number ≠ some entry := by
  constructor
  · intro missing number holds
    obtain ⟨first, located, _⟩ := exists_number? holds
    exact absurd (missing.symm.trans located) (by simp)
  · intro absent
    cases located : table.number? entry with
    | none => rfl
    | some number => exact absurd (stored?_of_number? located) (absent number)

theorem Grows.stored? (grows : before.Grows after) (found : before.stored? number = some entry) :
    after.stored? number = some entry := by
  cases number with
  | access made =>
      obtain ⟨known, isKnown, rfl⟩ := Option.map_eq_some_iff.mp found
      exact Option.map_eq_some_iff.mpr ⟨known, grows.access? isKnown, rfl⟩
  | temp filled =>
      obtain ⟨declared, isDeclared, rfl⟩ := Option.map_eq_some_iff.mp found
      exact Option.map_eq_some_iff.mpr ⟨declared, grows.temp? isDeclared, rfl⟩

theorem Grows.number? (grows : before.Grows after) (located : before.number? entry = some number) :
    after.number? entry = some number := by
  cases entry with
  | access entry =>
      obtain ⟨index, isFirst, rfl⟩ := Option.map_eq_some_iff.mp located
      exact Option.map_eq_some_iff.mpr ⟨index, idxOf?_of_prefix grows.accesses isFirst, rfl⟩
  | temp entry =>
      obtain ⟨index, isFirst, rfl⟩ := Option.map_eq_some_iff.mp located
      exact Option.map_eq_some_iff.mpr ⟨index, idxOf?_of_prefix grows.temps isFirst, rfl⟩

/-! ## What inquiries get -/

def free (table : AccessTable) : TableEntry → TableNumber
  | .access _ => .access ⟨table.accesses.length⟩
  | .temp _ => .temp ⟨table.temps.length⟩

def enter (table : AccessTable) : TableEntry → AccessTable
  | .access entry => { table with accesses := table.accesses ++ [entry] }
  | .temp entry => { table with temps := table.temps ++ [entry] }

theorem grows_enter (table : AccessTable) (entry : TableEntry) : table.Grows (table.enter entry) := by
  cases entry with
  | access entry => exact ⟨List.prefix_refl _, List.prefix_append _ _⟩
  | temp entry => exact ⟨List.prefix_append _ _, List.prefix_refl _⟩

theorem number?_enter (missing : table.number? entry = none) :
    (table.enter entry).number? entry = some (table.free entry) := by
  cases entry with
  | access entry =>
      have absent := Option.map_eq_none_iff.mp missing
      unfold List.idxOf? at absent
      simp [number?, enter, free, List.idxOf?, List.findIdx?_append, absent, List.findIdx?_cons]
  | temp entry =>
      have absent := Option.map_eq_none_iff.mp missing
      unfold List.idxOf? at absent
      simp [number?, enter, free, List.idxOf?, List.findIdx?_append, absent, List.findIdx?_cons]

theorem answer_of_known (located : table.number? inquiry.entry = some number) :
    table.answer inquiry = (number, table) := by
  cases inquiry with
  | access input kind =>
      obtain ⟨index, isFirst, rfl⟩ := Option.map_eq_some_iff.mp located
      simp only [answer, access, isFirst]
  | output source position type =>
      obtain ⟨index, isFirst, rfl⟩ := Option.map_eq_some_iff.mp located
      simp only [answer, output, isFirst]

theorem answer_of_missing (missing : table.number? inquiry.entry = none) :
    table.answer inquiry = (table.free inquiry.entry, table.enter inquiry.entry) := by
  cases inquiry with
  | access input kind =>
      have absent := Option.map_eq_none_iff.mp missing
      simp only [answer, access, absent]
      rfl
  | output source position type =>
      have absent := Option.map_eq_none_iff.mp missing
      simp only [answer, output, absent]
      rfl

theorem grows_answer (table : AccessTable) (inquiry : Inquiry) :
    table.Grows (table.answer inquiry).2 := by
  cases looked : table.number? inquiry.entry with
  | some number =>
      rw [answer_of_known looked]
      exact .refl table
  | none =>
      rw [answer_of_missing looked]
      exact table.grows_enter inquiry.entry

theorem number?_answer (table : AccessTable) (inquiry : Inquiry) :
    (table.answer inquiry).2.number? inquiry.entry = some (table.answer inquiry).1 := by
  cases looked : table.number? inquiry.entry with
  | some number => rw [answer_of_known looked, looked]
  | none => rw [answer_of_missing looked, number?_enter looked]

theorem grows_answerAll (inquiries : List Inquiry) :
    ∀ table : AccessTable, table.Grows (table.answerAll inquiries) := by
  induction inquiries with
  | nil => exact fun table => .refl table
  | cons inquiry rest ih => exact fun table => (table.grows_answer inquiry).trans (ih _)

/-- What an inquiry gets: the first number of the entry that it asks for, in a table
that is the same but for that entry, and the same altogether if it was there. -/
structure Answers (before : AccessTable) (inquiry : Inquiry) (number : TableNumber)
    (after : AccessTable) : Prop where
  found : after.stored? number = some inquiry.entry
  first : ∀ other, after.stored? other = some inquiry.entry → number.index ≤ other.index
  known : (∃ other, before.stored? other = some inquiry.entry) → after = before
  fresh : (∀ other, before.stored? other ≠ some inquiry.entry) →
    number = before.free inquiry.entry ∧ after = before.enter inquiry.entry
  kept : ∀ other entry, before.stored? other = some entry → after.stored? other = some entry

theorem answers (table : AccessTable) (inquiry : Inquiry) :
    table.Answers inquiry (table.answer inquiry).1 (table.answer inquiry).2 where
  found := stored?_of_number? (table.number?_answer inquiry)
  first := by
    intro other holds
    obtain ⟨first, located, le⟩ := exists_number? holds
    rw [number?_answer, Option.some.injEq] at located
    rwa [located]
  known := by
    rintro ⟨other, holds⟩
    obtain ⟨first, located, _⟩ := exists_number? holds
    rw [answer_of_known located]
  fresh := by
    intro absent
    rw [answer_of_missing (number?_eq_none_iff.mpr absent)]
    exact ⟨rfl, rfl⟩
  kept := fun _ _ found => (table.grows_answer inquiry).stored? found

/-- Two inquiries get the same number exactly when they ask for the same entry,
whatever was asked between them. -/
theorem answer_eq_iff (table : AccessTable) (first second : Inquiry) (between : List Inquiry) :
    (table.answer first).1 = (((table.answer first).2.answerAll between).answer second).1 ↔
      first.entry = second.entry := by
  have grows := (grows_answerAll between (table.answer first).2).trans
    (grows_answer ((table.answer first).2.answerAll between) second)
  have here := grows.number? (table.number?_answer first)
  have there := ((table.answer first).2.answerAll between).number?_answer second
  constructor
  · intro same
    rw [← same] at there
    exact Option.some.inj ((stored?_of_number? here).symm.trans (stored?_of_number? there))
  · intro same
    rw [same] at here
    exact Option.some.inj (here.symm.trans there)

end AccessTable

/-! ## The index -/

namespace IndexedTable

theorem ofInput_eq (type : Ty) : ofInput type = (AccessTable.ofInput type).indexed := by
  have absent : ([] : List TempEntry).idxOf? ⟨type, none, 0⟩ = none := rfl
  have first := Register.intern_ofEntries_of_missing absent
  unfold ofInput AccessTable.indexed ofParts
  exact congrArg₂ IndexedTable.mk (congrArg Prod.snd first) rfl

theorem answer_indexed (table : AccessTable) (inquiry : Inquiry) :
    table.indexed.answer inquiry = ((table.answer inquiry).1, (table.answer inquiry).2.indexed) := by
  cases looked : table.number? inquiry.entry with
  | some number =>
      rw [AccessTable.answer_of_known looked]
      cases inquiry with
      | access input kind =>
          obtain ⟨index, isFirst, rfl⟩ := Option.map_eq_some_iff.mp looked
          simp only [AccessTable.indexed, ofParts, answer, access,
            Register.intern_ofEntries_of_known isFirst]
      | output source position type =>
          obtain ⟨index, isFirst, rfl⟩ := Option.map_eq_some_iff.mp looked
          simp only [AccessTable.indexed, ofParts, answer, output,
            Register.intern_ofEntries_of_known isFirst]
  | none =>
      rw [AccessTable.answer_of_missing looked]
      cases inquiry with
      | access input kind =>
          have absent := Option.map_eq_none_iff.mp looked
          simp only [AccessTable.indexed, ofParts, answer, access,
            Register.intern_ofEntries_of_missing absent]
          rfl
      | output source position type =>
          have absent := Option.map_eq_none_iff.mp looked
          simp only [AccessTable.indexed, ofParts, answer, output,
            Register.intern_ofEntries_of_missing absent]
          rfl

theorem answerAll_indexed (inquiries : List Inquiry) : ∀ table : AccessTable,
    table.indexed.answerAll inquiries = (table.answerAll inquiries).indexed := by
  induction inquiries with
  | nil => exact fun _ => rfl
  | cons inquiry rest ih =>
      intro table
      unfold answerAll AccessTable.answerAll at *
      rw [List.foldl_cons, List.foldl_cons, answer_indexed, ih]

end IndexedTable

/-- Any two lists make a table, and whatever it was asked since, inquiries get the
first number of what they ask for and change nothing but what is missing. No number
gets another meaning, and two inquiries get the same number exactly if they ask for
the same. A table with an index gives the same answers, and its index is at any time
the one that its entries are given when they are indexed anew. -/
theorem AccessTable.interning_canonical (table : AccessTable) (earlier : List Inquiry) :
    let now := table.answerAll earlier
    let indexed := (IndexedTable.ofParts table.temps table.accesses).answerAll earlier
    (∀ inquiry, now.Answers inquiry (now.answer inquiry).1 (now.answer inquiry).2) ∧
      (∀ later number entry, now.stored? number = some entry →
        (now.answerAll later).stored? number = some entry) ∧
      (∀ first second between,
        (now.answer first).1 = (((now.answer first).2.answerAll between).answer second).1 ↔
          first.entry = second.entry) ∧
      indexed.entries = now ∧
      indexed = .ofParts indexed.temps.entries indexed.accesses.entries ∧
      (∀ inquiry, (indexed.answer inquiry).1 = (now.answer inquiry).1) ∧
      ∀ type, IndexedTable.ofInput type = (ofInput type).indexed := by
  intro now indexed
  have inStep : indexed = now.indexed := IndexedTable.answerAll_indexed earlier table
  refine ⟨now.answers, ?_, now.answer_eq_iff, ?_, ?_, ?_, IndexedTable.ofInput_eq⟩
  · intro later number entry found
    exact (grows_answerAll later now).stored? found
  · rw [inStep]
    rfl
  · rw [inStep]
    rfl
  · intro inquiry
    rw [inStep, IndexedTable.answer_indexed]

/-- A table that holds an access and one of its outputs twice. -/
def repeatedTable : AccessTable where
  temps := [⟨⟨3⟩, none, 0⟩, ⟨⟨1⟩, some ⟨1⟩, 0⟩, ⟨⟨1⟩, some ⟨1⟩, 0⟩]
  accesses := [⟨.root, .field ⟨1⟩⟩, ⟨.root, .field ⟨1⟩⟩]

/-- Both places keep the access, and the first one stands for it. -/
theorem interning_canonical_repeatedTable :
    let now := repeatedTable.answerAll [.access ⟨1⟩ (.component 0)]
    let inquiry : Inquiry := .access .root (.field ⟨1⟩)
    now.stored? (.access ⟨1⟩) = some inquiry.entry ∧ (now.answer inquiry).2 = now ∧
      (now.answer inquiry).1 = .access ⟨0⟩ ∧
      ((IndexedTable.ofParts repeatedTable.temps repeatedTable.accesses).answerAll
        [.access ⟨1⟩ (.component 0)]).entries = now := by
  intro now inquiry
  obtain ⟨answered, _, _, sameEntries, _⟩ :=
    repeatedTable.interning_canonical [.access ⟨1⟩ (.component 0)]
  have held : now.stored? (.access ⟨1⟩) = some inquiry.entry := by decide
  exact ⟨held, (answered inquiry).known ⟨_, held⟩, by decide, sameEntries⟩

end MatchCompiler
