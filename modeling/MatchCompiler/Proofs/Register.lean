import Mathlib.Data.List.Nodup
import MatchCompiler.Register

/-!
# Where entries are found

An entry is found where it comes first, and stays there whatever is put behind it.
A register that is indexed anew has the map that it had.
-/

set_option autoImplicit false

namespace MatchCompiler

theorem getElem?_snoc_eq_some {α : Type} {entries : List α} {entry other : α} {index : Nat}
    (found : (entries ++ [entry])[index]? = some other) :
    entries[index]? = some other ∨ index = entries.length ∧ other = entry := by
  rcases Nat.lt_trichotomy index entries.length with before | isLast | behind
  · exact Or.inl (by rwa [List.getElem?_append_left before] at found)
  · rw [isLast, List.getElem?_concat_length] at found
    exact Or.inr ⟨isLast, (Option.some.inj found).symm⟩
  · rw [List.getElem?_eq_none (by simpa [Nat.succ_le_iff] using behind)] at found
    contradiction

section Entries

variable {α : Type} [DecidableEq α] {entries : List α} {entry : α} {index : Nat}

theorem getElem?_of_idxOf? (found : entries.idxOf? entry = some index) :
    entries[index]? = some entry := by
  obtain ⟨inside, isEntry, _⟩ := List.idxOf?_eq_some_iff.mp found
  exact List.getElem?_eq_some_iff.mpr ⟨inside, isEntry⟩

theorem idxOf?_of_nodup (distinct : entries.Nodup) (found : entries[index]? = some entry) :
    entries.idxOf? entry = some index := by
  obtain ⟨inside, isEntry⟩ := List.getElem?_eq_some_iff.mp found
  refine List.idxOf?_eq_some_iff.mpr ⟨inside, isEntry, fun earlier before same => ?_⟩
  exact List.pairwise_iff_getElem.mp distinct earlier index (by omega) inside before
    (same.trans isEntry.symm)

theorem nodup_snoc (distinct : entries.Nodup) (absent : entries.idxOf? entry = none) :
    (entries ++ [entry]).Nodup := by
  rw [← List.concat_eq_append]
  exact distinct.concat (List.idxOf?_eq_none_iff.mp absent)

theorem idxOf?_of_prefix {before after : List α} (grows : before <+: after)
    (isFirst : before.idxOf? entry = some index) : after.idxOf? entry = some index := by
  obtain ⟨more, rfl⟩ := grows
  unfold List.idxOf? at *
  rw [List.findIdx?_append, isFirst, Option.some_or]

theorem exists_idxOf? (holds : entries[index]? = some entry) :
    ∃ first, entries.idxOf? entry = some first ∧ first ≤ index := by
  obtain ⟨_, isEntry⟩ := List.getElem?_eq_some_iff.mp holds
  cases looked : entries.idxOf? entry with
  | none => exact absurd (List.mem_of_getElem? holds) (List.idxOf?_eq_none_iff.mp looked)
  | some first =>
      obtain ⟨_, _, notBefore⟩ := List.idxOf?_eq_some_iff.mp looked
      exact ⟨first, rfl, Nat.le_of_not_lt fun early => notBefore index early isEntry⟩

end Entries

namespace Register

variable {α : Type} [DecidableEq α] [Hashable α] {entries : List α} {entry : α} {number : Nat}

theorem getElem?_foldl_insertIfNew (entry : α) (entries : List α) :
    ∀ (start : Nat) (numbers : Std.ExtHashMap α Nat),
      ((entries.zipIdx start).foldl (fun numbers entry => numbers.insertIfNew entry.1 entry.2)
        numbers)[entry]? = numbers[entry]?.or ((entries.idxOf? entry).map (· + start)) := by
  induction entries with
  | nil => simp
  | cons first rest ih =>
      intro start numbers
      rw [List.zipIdx_cons, List.foldl_cons, ih, Std.ExtHashMap.getElem?_insertIfNew,
        List.idxOf?_cons]
      by_cases here : first = entry
      · subst here
        by_cases known : first ∈ numbers
        · simp [known]
        · simp [known]
      · simp [here, Function.comp_def, Nat.add_assoc, Nat.add_comm 1 start]

/-- An index finds entries where they come first. -/
theorem getElem?_ofEntries (entries : List α) (entry : α) :
    (ofEntries entries).numbers[entry]? = entries.idxOf? entry := by
  unfold ofEntries
  rw [getElem?_foldl_insertIfNew]
  simp

theorem ofEntries_snoc (absent : entries.idxOf? entry = none) :
    ofEntries (entries ++ [entry]) =
      ⟨entries ++ [entry], (ofEntries entries).numbers.insert entry entries.length⟩ := by
  have missing : entry ∉ (ofEntries entries).numbers := by
    rw [Std.ExtHashMap.mem_iff_isSome_getElem?, getElem?_ofEntries, absent]
    exact Bool.false_ne_true
  unfold ofEntries at missing ⊢
  rw [List.zipIdx_append, List.foldl_append]
  congr 1
  apply Std.ExtHashMap.ext_getElem?
  intro other
  simp only [List.zipIdx_cons, List.zipIdx_nil, List.foldl_cons, List.foldl_nil, Nat.zero_add,
    Std.ExtHashMap.getElem?_insertIfNew, Std.ExtHashMap.getElem?_insert, missing]
  simp

theorem intern_ofEntries_of_known (located : entries.idxOf? entry = some number) :
    (ofEntries entries).intern entry = (number, ofEntries entries) := by
  unfold intern
  rw [getElem?_ofEntries, located]

theorem intern_ofEntries_of_missing (absent : entries.idxOf? entry = none) :
    (ofEntries entries).intern entry = (entries.length, ofEntries (entries ++ [entry])) := by
  unfold intern
  rw [getElem?_ofEntries, absent, ofEntries_snoc absent]
  rfl

end Register

end MatchCompiler
