import Mathlib
import MatchCompiler.Proofs.Register
import MatchCompiler.Proofs.Success
import MatchCompiler.Symbol.Sharded

/-!
# Symbols stand for strings

The number of a symbol tells its shard and its position there, as long as no shard
holds more strings than it has positions. A string is then found under the symbol
that was given for it and under no other one, whatever was interned since. Strings
with the same first bytes share a shard and have different positions in it.
-/

set_option autoImplicit false

namespace MatchCompiler

namespace Symbol

variable {shard position : Nat}

theorem shard_ofParts (inside : position < capacity) : (ofParts shard position).shard = shard := by
  unfold Symbol.shard ofParts
  dsimp only
  rw [Nat.mul_comm, Nat.mul_add_div (by decide), Nat.div_eq_of_lt inside, Nat.add_zero]

theorem position_ofParts (inside : position < capacity) :
    (ofParts shard position).position = position := by
  unfold Symbol.position ofParts
  dsimp only
  rw [Nat.mul_comm, Nat.mul_add_mod, Nat.mod_eq_of_lt inside]

theorem ofParts_self (symbol : Symbol) : ofParts symbol.shard symbol.position = symbol := by
  unfold ofParts Symbol.shard Symbol.position
  rw [Nat.div_add_mod']

theorem shardOf_lt (text : String) : shardOf text < shardCount :=
  Nat.mod_lt _ (by decide)

theorem shardOf_empty : shardOf "" = 0 := by
  decide +kernel

end Symbol

namespace SymbolTable

variable {table before after : SymbolTable} {text other : String} {symbol : Symbol} {shard : Nat}

/-- The empty string comes first, and no string comes twice. -/
structure Begun (table : SymbolTable) : Prop where
  first : table.entries.head? = some ""
  distinct : table.entries.Nodup

/-- No shard has more strings than positions. -/
def Fits (table : SymbolTable) : Prop :=
  ∀ shard, (table.inShard shard).length ≤ Symbol.capacity

theorem begun_empty : empty.Begun :=
  ⟨rfl, List.nodup_singleton _⟩

theorem mem_inShard :
    text ∈ table.inShard shard ↔ text ∈ table.entries ∧ Symbol.shardOf text = shard := by
  simp [inShard]

theorem inShard_grows (grows : before.entries <+: after.entries) (shard : Nat) :
    before.inShard shard <+: after.inShard shard :=
  grows.filter _

theorem Fits.of_prefix (fits : after.Fits) (grows : before.entries <+: after.entries) :
    before.Fits :=
  fun shard => (inShard_grows grows shard).length_le.trans (fits shard)

theorem fits_empty : empty.Fits := by
  intro shard
  have few : (empty.inShard shard).length ≤ 1 := List.length_filter_le _ _
  exact few.trans (by decide)

/-! ## Finding strings -/

theorem find?_eq_some_iff : table.find? text = some symbol ↔
    ∃ position, (table.inShard (Symbol.shardOf text)).idxOf? text = some position ∧
      Symbol.ofParts (Symbol.shardOf text) position = symbol := by
  simp [find?]

theorem find?_eq_none_iff : table.find? text = none ↔ text ∉ table.entries := by
  simp [find?, List.idxOf?_eq_none_iff, mem_inShard]

theorem exists_find?_iff : (∃ symbol, table.find? text = some symbol) ↔ text ∈ table.entries := by
  rw [← Option.ne_none_iff_exists', ne_eq, find?_eq_none_iff, not_not]

theorem find?_of_prefix (grows : before.entries <+: after.entries)
    (found : before.find? text = some symbol) : after.find? text = some symbol := by
  obtain ⟨position, isFirst, rfl⟩ := find?_eq_some_iff.mp found
  exact find?_eq_some_iff.mpr ⟨position, idxOf?_of_prefix (inShard_grows grows _) isFirst, rfl⟩

theorem Begun.find?_empty (begun : table.Begun) : table.find? "" = some .empty := by
  obtain ⟨rest, entriesEq⟩ := List.head?_eq_some_iff.mp begun.first
  refine find?_eq_some_iff.mpr ⟨0, ?_, ?_⟩
  · simp [inShard, entriesEq, List.idxOf?_cons]
  · rw [Symbol.shardOf_empty]
    rfl

theorem lookup_eq_some_iff (begun : table.Begun) (fits : table.Fits) :
    table.lookup symbol = some text ↔ table.find? text = some symbol := by
  constructor
  · intro found
    have inShard := mem_inShard.mp (List.mem_of_getElem? found)
    refine find?_eq_some_iff.mpr ⟨symbol.position, ?_, ?_⟩
    · rw [inShard.2]
      exact idxOf?_of_nodup (begun.distinct.filter _) found
    · rw [inShard.2, Symbol.ofParts_self]
  · intro found
    obtain ⟨position, isFirst, rfl⟩ := find?_eq_some_iff.mp found
    have isThere := getElem?_of_idxOf? isFirst
    have inside : position < Symbol.capacity :=
      Nat.lt_of_lt_of_le (List.getElem?_eq_some_iff.mp isThere).1 (fits _)
    unfold lookup
    rw [Symbol.shard_ofParts inside, Symbol.position_ofParts inside]
    exact isThere

theorem symbol_eq_iff (begun : table.Begun) (fits : table.Fits) {another : Symbol}
    (found : table.find? text = some symbol) (otherFound : table.find? other = some another) :
    symbol = another ↔ text = other := by
  constructor
  · rintro rfl
    have isText := (lookup_eq_some_iff begun fits).mpr found
    have isOther := (lookup_eq_some_iff begun fits).mpr otherFound
    exact Option.some.inj (isText.symm.trans isOther)
  · rintro rfl
    exact Option.some.inj (found.symm.trans otherFound)

/-! ## Interning strings -/

theorem intern_of_known (found : table.find? text = some symbol) :
    table.intern text = (symbol, table) := by
  simp only [intern, found]

theorem intern_of_missing (missing : text ∉ table.entries) :
    table.intern text = (.ofParts (Symbol.shardOf text) (table.inShard (Symbol.shardOf text)).length,
      ⟨table.entries ++ [text]⟩) := by
  simp only [intern, find?_eq_none_iff.mpr missing]

theorem inShard_snoc (text : String) (shard : Nat) :
    inShard ⟨table.entries ++ [text]⟩ shard =
      if Symbol.shardOf text = shard then table.inShard shard ++ [text] else table.inShard shard := by
  by_cases here : Symbol.shardOf text = shard <;> simp [inShard, here]

theorem fits_snoc (fits : table.Fits) : Fits ⟨table.entries ++ [text]⟩ ↔
    (table.inShard (Symbol.shardOf text)).length < Symbol.capacity := by
  constructor
  · intro filled
    have here := filled (Symbol.shardOf text)
    rw [inShard_snoc, if_pos rfl, List.length_append] at here
    exact here
  · intro room shard
    rw [inShard_snoc]
    by_cases here : Symbol.shardOf text = shard
    · subst here
      rw [if_pos rfl, List.length_append]
      exact room
    · rw [if_neg here]
      exact fits shard

theorem find?_intern (table : SymbolTable) (text : String) :
    (table.intern text).2.find? text = some (table.intern text).1 := by
  cases looked : table.find? text with
  | some symbol => rw [intern_of_known looked, looked]
  | none =>
      have missing := find?_eq_none_iff.mp looked
      have absent : (table.inShard (Symbol.shardOf text)).idxOf? text = none :=
        List.idxOf?_eq_none_iff.mpr fun member => missing (mem_inShard.mp member).1
      rw [intern_of_missing missing]
      refine find?_eq_some_iff.mpr ⟨_, ?_, rfl⟩
      unfold List.idxOf? at absent
      simp [inShard_snoc, List.idxOf?, List.findIdx?_append, absent, List.findIdx?_cons]

theorem grows_intern (table : SymbolTable) (text : String) :
    table.entries <+: (table.intern text).2.entries := by
  cases looked : table.find? text with
  | some symbol => rw [intern_of_known looked]
  | none =>
      rw [intern_of_missing (find?_eq_none_iff.mp looked)]
      exact List.prefix_append _ _

theorem mem_intern : other ∈ (table.intern text).2.entries ↔ other ∈ table.entries ∨ other = text := by
  by_cases known : text ∈ table.entries
  · obtain ⟨symbol, found⟩ := exists_find?_iff.mpr known
    rw [intern_of_known found]
    exact ⟨Or.inl, fun either => either.elim id fun same => same ▸ known⟩
  · simp [intern_of_missing known]

theorem Begun.intern (begun : table.Begun) (text : String) : (table.intern text).2.Begun := by
  cases looked : table.find? text with
  | some symbol => rwa [intern_of_known looked]
  | none =>
      have missing := find?_eq_none_iff.mp looked
      rw [intern_of_missing missing]
      refine ⟨?_, nodup_snoc begun.distinct (List.idxOf?_eq_none_iff.mpr missing)⟩
      rw [List.head?_append, begun.first, Option.some_or]

section Runs

variable {texts : List String}

theorem grows_internAll (texts : List String) : ∀ table : SymbolTable,
    table.entries <+: (table.internAll texts).entries := by
  induction texts with
  | nil => exact fun table => List.prefix_refl _
  | cons text rest ih => exact fun table => (table.grows_intern text).trans (ih _)

theorem mem_internAll (texts : List String) : ∀ table : SymbolTable,
    other ∈ (table.internAll texts).entries ↔ other ∈ table.entries ∨ other ∈ texts := by
  induction texts with
  | nil => simp [internAll]
  | cons text rest ih =>
      intro table
      rw [internAll, List.foldl_cons, ← internAll, ih, mem_intern, List.mem_cons, or_assoc]

theorem Begun.internAll (texts : List String) : ∀ {table : SymbolTable}, table.Begun →
    (table.internAll texts).Begun := by
  induction texts with
  | nil => exact fun begun => begun
  | cons text rest ih => exact fun begun => ih (begun.intern text)

/-- The symbols that were given on the way are those that the strings have in the end. -/
theorem map_some_symbolsOf (texts : List String) : ∀ table : SymbolTable,
    (table.symbolsOf texts).map some = texts.map (table.internAll texts).find? := by
  induction texts with
  | nil => exact fun _ => rfl
  | cons text rest ih =>
      intro table
      have kept := find?_of_prefix (grows_internAll rest _) (table.find?_intern text)
      rw [symbolsOf, List.map_cons, List.map_cons, ih]
      exact congrArg₂ List.cons kept.symm rfl

theorem length_symbolsOf (table : SymbolTable) (texts : List String) :
    (table.symbolsOf texts).length = texts.length := by
  simpa using congrArg List.length (table.map_some_symbolsOf texts)

theorem symbolsOf_take (calls : Nat) : ∀ (texts : List String) (table : SymbolTable),
    table.symbolsOf (texts.take calls) = (table.symbolsOf texts).take calls := by
  induction calls with
  | zero => exact fun texts table => rfl
  | succ calls ih =>
      intro texts table
      cases texts with
      | nil => rfl
      | cons text rest => simp only [List.take_succ_cons, symbolsOf, ih]

theorem grows_internAll_take (calls : Nat) (texts : List String) (table : SymbolTable) :
    (table.internAll (texts.take calls)).entries <+: (table.internAll texts).entries := by
  have split : table.internAll texts =
      (table.internAll (texts.take calls)).internAll (texts.drop calls) := by
    rw [internAll, internAll, internAll, ← List.foldl_append, List.take_append_drop]
  rw [split]
  exact grows_internAll _ _

/-- A call with the symbol that it returned: the string has that symbol in the end. -/
theorem find?_of_mem_zip (table : SymbolTable)
    (called : (text, symbol) ∈ texts.zip (table.symbolsOf texts)) :
    (table.internAll texts).find? text = some symbol := by
  obtain ⟨index, isCall⟩ := List.getElem?_of_mem called
  obtain ⟨isText, isSymbol⟩ := List.getElem?_zip_eq_some.mp isCall
  have mapped := congrArg (·[index]?) (table.map_some_symbolsOf texts)
  simp only [List.getElem?_map, isText, isSymbol, Option.map_some, Option.some.injEq] at mapped
  exact mapped.symm

/-- A symbol under which a string is found was returned for it, or is that of the empty
string. -/
theorem issued_of_find? (texts : List String)
    (found : (empty.internAll texts).find? text = some symbol) :
    symbol = .empty ∨ symbol ∈ empty.symbolsOf texts := by
  by_cases called : text ∈ texts
  · right
    have isIssued : some symbol ∈ (empty.symbolsOf texts).map some := by
      rw [map_some_symbolsOf, ← found]
      exact List.mem_map_of_mem called
    simpa using isIssued
  · left
    have begun := begun_empty.internAll texts
    have member := exists_find?_iff.mp ⟨symbol, found⟩
    rcases (mem_internAll texts _).mp member with isEmpty | isCalled
    · rw [List.mem_singleton.mp isEmpty, begun.find?_empty] at found
      exact (Option.some.inj found).symm
    · contradiction

theorem size_internAll_empty (texts : List String) :
    (empty.internAll texts).size = (texts.toFinset.erase "").card + 1 := by
  have distinct := (begun_empty.internAll texts).distinct
  have contents : (empty.internAll texts).entries.toFinset = insert "" (texts.toFinset.erase "") := by
    ext text
    by_cases isEmpty : text = "" <;> simp [mem_internAll, empty, isEmpty]
  calc (empty.internAll texts).size
      = (empty.internAll texts).entries.toFinset.card := (List.toFinset_card_of_nodup distinct).symm
    _ = (insert "" (texts.toFinset.erase "")).card := by rw [contents]
    _ = (texts.toFinset.erase "").card + 1 :=
        Finset.card_insert_of_notMem (Finset.notMem_erase _ _)

end Runs

end SymbolTable

/-! ## Shard by shard -/

namespace ShardedTable

/-- Only the low four bits of a hash choose the shard, and a carry out of 32 bits does
not reach them. -/
theorem shardFor_val (text : String) : (shardFor text).val = Symbol.shardOf text := by
  have agree : ∀ (bytes : List UInt8) (word : UInt32) (number : Nat),
      word.toNat % 16 = number % 16 →
        (bytes.foldl (fun hash byte => hash * 31 + byte.toUInt32) word).toNat % 16 =
          bytes.foldl (fun hash byte => 31 * hash + byte.toNat) number % 16 := by
    intro bytes
    induction bytes with
    | nil => exact fun _ _ same => same
    | cons byte rest ih =>
        intro word number same
        refine ih _ _ ?_
        rw [UInt32.toNat_add, UInt32.toNat_mul, UInt8.toNat_toUInt32]
        dsimp only
        change (word.toNat * 31 % 4294967296 + byte.toNat) % 4294967296 % 16 = _
        omega
  exact agree _ 0 0 rfl

end ShardedTable

namespace SymbolTable

variable {table : SymbolTable} {text : String} {symbol : Symbol}

theorem get_sharded (table : SymbolTable) (shard : Fin Symbol.shardCount) :
    table.sharded.shards.get shard = .ofEntries (table.inShard shard) := by
  exact Vector.getElem_ofFn shard.isLt

theorem sharded_empty : ShardedTable.empty = empty.sharded := by
  have first : (Register.empty.intern "").2 = Register.ofEntries [""] :=
    congrArg Prod.snd (Register.intern_ofEntries_of_missing (rfl : [].idxOf? "" = none))
  unfold ShardedTable.empty sharded
  refine congrArg₂ ShardedTable.mk (congrArg Vector.ofFn (funext fun shard => ?_)) rfl
  by_cases isFirst : shard.val = 0
  · simp [isFirst, first, inShard, empty, Symbol.shardOf_empty]
  · simp [isFirst, inShard, empty, Symbol.shardOf_empty, Ne.symm isFirst]
    rfl

theorem set_sharded (table : SymbolTable) (text : String) :
    (⟨table.sharded.shards.set (ShardedTable.shardFor text)
        (.ofEntries (table.inShard (ShardedTable.shardFor text) ++ [text]))
        (ShardedTable.shardFor text).isLt, table.size + 1⟩ : ShardedTable) =
      sharded ⟨table.entries ++ [text]⟩ := by
  unfold sharded
  refine congrArg₂ ShardedTable.mk (Vector.ext fun shard inside => ?_) (by simp [size])
  rw [Vector.getElem_set, Vector.getElem_ofFn, Vector.getElem_ofFn, inShard_snoc,
    ShardedTable.shardFor_val]
  split <;> simp_all

theorem intern_sharded_of_known (begun : table.Begun) (found : table.find? text = some symbol) :
    table.sharded.intern text = .ok (symbol, table.sharded) := by
  unfold ShardedTable.intern
  split
  · rename_i isEmpty
    rw [isEmpty, begun.find?_empty] at found
    rw [Option.some.inj found]
  · obtain ⟨position, isFirst, rfl⟩ := find?_eq_some_iff.mp found
    rw [← ShardedTable.shardFor_val] at isFirst ⊢
    simp only [get_sharded, Register.getElem?_ofEntries, isFirst]

theorem intern_sharded_of_missing (begun : table.Begun) (missing : text ∉ table.entries) :
    table.sharded.intern text =
      if (table.inShard (Symbol.shardOf text)).length < Symbol.capacity then
        .ok ((table.intern text).1, (table.intern text).2.sharded)
      else .error ⟨Symbol.shardOf text, (table.inShard (Symbol.shardOf text)).length⟩ := by
  have notEmpty : text ≠ "" := by
    rintro rfl
    exact missing (List.mem_of_mem_head? begun.first)
  have absent : (table.inShard (ShardedTable.shardFor text)).idxOf? text = none :=
    List.idxOf?_eq_none_iff.mpr fun member => missing (mem_inShard.mp member).1
  rw [intern_of_missing missing, ← set_sharded, ← ShardedTable.shardFor_val]
  unfold ShardedTable.intern
  simp only [if_neg notEmpty, get_sharded, Register.getElem?_ofEntries, absent,
    Register.intern_ofEntries_of_missing absent]
  rfl

/-- A string that finds room is interned shard by shard as it is in one list. -/
theorem intern_sharded_of_fits (begun : table.Begun) (fits : (table.intern text).2.Fits) :
    table.sharded.intern text = .ok ((table.intern text).1, (table.intern text).2.sharded) := by
  cases looked : table.find? text with
  | some symbol => rw [intern_sharded_of_known begun looked, intern_of_known looked]
  | none =>
      have missing := find?_eq_none_iff.mp looked
      have before := fits.of_prefix (table.grows_intern text)
      rw [intern_of_missing missing] at fits
      rw [intern_sharded_of_missing begun missing, if_pos ((fits_snoc before).mp fits)]

theorem fits_of_intern_sharded (begun : table.Begun) (fits : table.Fits)
    {answer : Symbol × ShardedTable} (interned : table.sharded.intern text = .ok answer) :
    (table.intern text).2.Fits := by
  cases looked : table.find? text with
  | some symbol => rwa [intern_of_known looked]
  | none =>
      have missing := find?_eq_none_iff.mp looked
      rw [intern_of_missing missing]
      refine (fits_snoc fits).mpr ?_
      by_contra full
      rw [intern_sharded_of_missing begun missing, if_neg full] at interned
      contradiction

/-- A string is refused only where its shard is full, and the refusal says so. -/
theorem refused_by_full_shard (begun : table.Begun) (fits : table.Fits) {error : ShardOverflow}
    (refused : table.sharded.intern text = .error error) :
    error = ⟨Symbol.shardOf text, Symbol.capacity⟩ := by
  cases looked : table.find? text with
  | some symbol =>
      rw [intern_sharded_of_known begun looked] at refused
      contradiction
  | none =>
      rw [intern_sharded_of_missing begun (find?_eq_none_iff.mp looked)] at refused
      by_cases room : (table.inShard (Symbol.shardOf text)).length < Symbol.capacity
      · rw [if_pos room] at refused
        contradiction
      · rw [if_neg room] at refused
        have full := Nat.le_antisymm (fits (Symbol.shardOf text)) (Nat.le_of_not_lt room)
        rw [← Except.error.inj refused, full]

theorem internAll_sharded (texts : List String) : ∀ {table : SymbolTable}, table.Begun →
    (table.internAll texts).Fits → table.sharded.internAll texts =
      .ok (table.symbolsOf texts, (table.internAll texts).sharded) := by
  induction texts with
  | nil => exact fun _ _ => rfl
  | cons text rest ih =>
      intro table begun fits
      have first := intern_sharded_of_fits begun (fits.of_prefix (grows_internAll rest _))
      rw [ShardedTable.internAll, first]
      dsimp only [Bind.bind, Except.bind]
      rw [ih (begun.intern text) fits]
      rfl

theorem fits_of_internAll_sharded (texts : List String) : ∀ {table : SymbolTable}, table.Begun →
    table.Fits → ∀ {answer}, table.sharded.internAll texts = .ok answer →
      (table.internAll texts).Fits := by
  induction texts with
  | nil => exact fun _ fits _ _ => fits
  | cons text rest ih =>
      intro table begun fits answer interned
      rw [ShardedTable.internAll] at interned
      obtain ⟨first, isFirst, onward⟩ := bind_eq_ok.mp interned
      have room := fits_of_intern_sharded begun fits isFirst
      obtain rfl := Except.ok.inj ((intern_sharded_of_fits begun room).symm.trans isFirst)
      obtain ⟨others, areOthers, _⟩ := bind_eq_ok.mp onward
      exact ih (begun.intern text) room areOthers

theorem lookup_sharded (table : SymbolTable) (symbol : Symbol) :
    table.sharded.lookup symbol = table.lookup symbol := by
  unfold ShardedTable.lookup lookup
  by_cases inside : symbol.shard < Symbol.shardCount
  · simp [sharded, inside, Register.ofEntries]
  · have noString : table.inShard symbol.shard = [] := by
      refine List.eq_nil_iff_forall_not_mem.mpr fun text member => inside ?_
      rw [← (mem_inShard.mp member).2]
      exact Symbol.shardOf_lt text
    simp [sharded, inside, noString]

/-! ## Names and strings -/

/-- Strings and the symbols that were returned for them, one by one, and what the
interner then looks up and counts. -/
structure Naming (texts : List String) (symbols : List Symbol) (lookup : Symbol → Option String)
    (count : Nat) : Prop where
  complete : symbols.length = texts.length
  apart : ∀ {text other symbol another}, (text, symbol) ∈ texts.zip symbols →
    (other, another) ∈ texts.zip symbols → (symbol = another ↔ text = other)
  found : ∀ {text symbol}, (text, symbol) ∈ texts.zip symbols → lookup symbol = some text
  issued : ∀ {symbol text}, lookup symbol = some text → symbol = .empty ∨ symbol ∈ symbols
  empty : lookup .empty = some ""
  onlyEmpty : ∀ {text symbol}, (text, symbol) ∈ texts.zip symbols →
    (symbol = .empty ↔ text = "")
  counted : count = (texts.toFinset.erase "").card + 1

theorem naming_internAll (texts : List String)
    (fits : (SymbolTable.empty.internAll texts).Fits) :
    Naming texts (SymbolTable.empty.symbolsOf texts) (SymbolTable.empty.internAll texts).lookup
      (SymbolTable.empty.internAll texts).size := by
  have begun := begun_empty.internAll texts
  exact {
    complete := length_symbolsOf _ texts
    apart := fun called another =>
      symbol_eq_iff begun fits (find?_of_mem_zip _ called) (find?_of_mem_zip _ another)
    found := fun called => (lookup_eq_some_iff begun fits).mpr (find?_of_mem_zip _ called)
    issued := fun isLooked => issued_of_find? texts ((lookup_eq_some_iff begun fits).mp isLooked)
    empty := (lookup_eq_some_iff begun fits).mpr begun.find?_empty
    onlyEmpty := fun called => symbol_eq_iff begun fits (find?_of_mem_zip _ called) begun.find?_empty
    counted := size_internAll_empty texts }

/-- Whatever strings are interned one after the other, if no shard overflows: after
any number of the calls, the symbols that they returned are those of one list of
strings, and stand for these strings one to one. -/
theorem interning_bijective {texts : List String} {symbols : List Symbol} {final : ShardedTable}
    (interned : ShardedTable.empty.internAll texts = .ok (symbols, final)) (calls : Nat) :
    ∃ table, ShardedTable.empty.internAll (texts.take calls) = .ok (symbols.take calls, table) ∧
      Naming (texts.take calls) (symbols.take calls) table.lookup table.total ∧
      let plain := SymbolTable.empty.internAll (texts.take calls)
      SymbolTable.empty.symbolsOf (texts.take calls) = symbols.take calls ∧
        table.lookup = plain.lookup ∧ table.total = plain.size := by
  rw [sharded_empty] at interned ⊢
  have fits := fits_of_internAll_sharded texts begun_empty fits_empty interned
  have isRun := internAll_sharded texts begun_empty fits
  obtain ⟨rfl, rfl⟩ := Prod.mk.inj (Except.ok.inj (isRun.symm.trans interned))
  have fewer : (SymbolTable.empty.internAll (texts.take calls)).Fits :=
    fits.of_prefix (grows_internAll_take calls texts _)
  refine ⟨(SymbolTable.empty.internAll (texts.take calls)).sharded, ?_, ?_,
    symbolsOf_take calls texts _, ?_, rfl⟩
  · rw [← symbolsOf_take]
    exact internAll_sharded _ begun_empty fewer
  · rw [← symbolsOf_take]
    exact funext (lookup_sharded _) ▸ naming_internAll _ fewer
  · exact funext (lookup_sharded _)

/-- The first one shares a shard with the empty string, and the second one another
shard with the third. -/
def letters : List String := ["p", "a", "q", "", "a"]

theorem interning_bijective_letters :
    ∃ symbols final, ShardedTable.empty.internAll letters = .ok (symbols, final) ∧
      symbols = [⟨1⟩, ⟨0x10000000⟩, ⟨0x10000001⟩, ⟨0⟩, ⟨0x10000000⟩] ∧
      ∀ calls, ∃ table, ShardedTable.empty.internAll (letters.take calls) =
          .ok (symbols.take calls, table) ∧
        Naming (letters.take calls) (symbols.take calls) table.lookup table.total := by
  have few : (SymbolTable.empty.internAll letters).entries.length ≤ Symbol.capacity := by
    cbv
  have fits : (SymbolTable.empty.internAll letters).Fits :=
    fun shard => (List.length_filter_le _ _).trans few
  have isRun := internAll_sharded letters begun_empty fits
  rw [← sharded_empty] at isRun
  refine ⟨_, _, isRun, by cbv, fun calls => ?_⟩
  obtain ⟨table, run, naming, _⟩ := interning_bijective isRun calls
  exact ⟨table, run, naming⟩

end SymbolTable

end MatchCompiler
