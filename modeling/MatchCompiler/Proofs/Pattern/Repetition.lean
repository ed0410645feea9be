import MatchCompiler.Proofs.Pattern.Layout

/-!
# Laying out again

A table that holds what a pattern needs is not changed by laying the pattern out:
every access and every temp is found under the number that it has. So `Lays` says
not only what the fragment of a pattern looks like, but what it is.
-/

set_option autoImplicit false

namespace MatchCompiler

namespace Pattern

variable {types : TypeOracle} {owner : Option Nat} {table : AccessTable} {input temp : Temp}
  {step : Step} {steps : List Step} {kind : AccessKind} {type : Ty}

theorem on_read (distinct : table.Distinct) (reads : Reads table input kind type step temp) :
    (read input kind type).on table = (.ok (step, temp), table) := by
  obtain ⟨made, rfl, known, found⟩ := reads
  simp only [read, Laying.on_bind, Laying.on_modifyGet, distinct.access_eq known,
    distinct.output_eq found, Laying.on_pure]

theorem on_convert (distinct : table.Distinct) {strict : Bool} {target : Ty}
    (converts : Converts types strict target table input steps temp) :
    (convert types strict target input).on table = (.ok (steps, temp), table) := by
  unfold Converts at converts
  unfold convert
  rw [Laying.on_bind_of_ok (Laying.on_get table)]
  cases conversion : types.classify (table.typeOf input) target with
  | always =>
      simp only [conversion] at converts ⊢
      obtain ⟨rfl, rfl⟩ := converts
      rfl
  | tested =>
      simp only [conversion] at converts ⊢
      obtain ⟨cast, reads, rfl⟩ := converts
      rw [Laying.on_bind_of_ok (on_read distinct reads), Laying.on_pure]
  | never =>
      simp only [conversion] at converts ⊢
      obtain ⟨cast, reads, rfl⟩ := converts
      rw [Laying.on_bind_of_ok (on_read distinct reads), Laying.on_pure]

theorem on_enter (distinct : table.Distinct) {declared : Option Ty}
    (enters : Enters types declared table input steps temp) :
    (enter types declared input).on table = (.ok (steps, temp), table) := by
  cases declared with
  | none =>
      obtain ⟨rfl, rfl⟩ := enters
      rfl
  | some type => exact on_convert distinct enters

mutual

/-- A pattern that is laid out is laid out in the same way again. -/
theorem flatten_of_lays (types : TypeOracle) (owner : Option Nat) {table : AccessTable}
    (distinct : table.Distinct) :
    ∀ (pattern : Pattern) {input : Temp} {fragment : Fragment}, pattern.Countable →
      Lays types owner table pattern input fragment →
      (pattern.flatten types owner input).on table = (.ok fragment, table)
  | .discard _, input, fragment, _, lays => by
      simp only [Lays] at lays
      rw [lays, flatten, Laying.on_pure]
  | .var _ name, input, fragment, _, lays => by
      simp only [Lays] at lays
      rw [lays, flatten, Laying.on_pure]
  | .typed _ target name, input, fragment, _, lays => by
      simp only [Lays] at lays
      obtain ⟨steps, temp, converts, rfl⟩ := lays
      simp only [flatten, Laying.on_bind, on_convert distinct converts, Laying.on_pure]
  | .constant _ value type, input, fragment, _, lays => by
      simp only [Lays] at lays
      split at lays
      · rename_i isNull
        rw [lays, flatten, if_pos isNull, Laying.on_pure]
      · rename_i notNull
        obtain ⟨steps, temp, converts, rfl⟩ := lays
        rw [flatten, if_neg notNull]
        simp only [Laying.on_bind, on_convert distinct converts, Laying.on_pure]
  | .compound _ target none members name, input, fragment, countable, lays => by
      simp only [Lays] at lays
      simp only [Countable] at countable
      obtain ⟨steps, temp, inner, enters, inside, rfl⟩ := lays
      simp only [flatten, Laying.on_bind, on_enter distinct enters,
        flattenMembers_of_lays types owner distinct members countable inside, Laying.on_pure]
  | .compound _ target (some (.method method, parts)) members name, input, fragment, countable,
      lays => by
      simp only [Lays] at lays
      simp only [Countable, Shape.capacity] at countable
      obtain ⟨few, fewParts, fewMembers⟩ := countable
      obtain ⟨steps, temp, call, outer, inner, enters, known, outside, inside, rfl⟩ := lays
      simp only [flatten, Laying.on_bind, on_enter distinct enters, Laying.on_count few,
        Laying.on_modifyGet, distinct.access_eq known,
        flattenOutputs_of_lays types owner distinct parts (by omega) fewParts outside,
        flattenMembers_of_lays types owner distinct members fewMembers inside, Laying.on_pure,
        Fragment.after_bind_append]
  | .compound _ target (some (.tuple, parts)) members name, input, fragment, countable, lays => by
      simp only [Lays] at lays
      simp only [Countable, Shape.capacity] at countable
      obtain ⟨few, fewParts, fewMembers⟩ := countable
      obtain ⟨steps, temp, outer, inner, enters, outside, inside, rfl⟩ := lays
      simp only [flatten, Laying.on_bind, on_enter distinct enters,
        flattenReads_of_lays types owner distinct parts (by omega) fewParts outside,
        flattenMembers_of_lays types owner distinct members fewMembers inside, Laying.on_pure]
  | .compound _ target (some (.indexed length lengthType, parts)) members name, input, fragment,
      countable, lays => by
      simp only [Lays] at lays
      simp only [Countable, Shape.capacity] at countable
      obtain ⟨few, fewParts, fewMembers⟩ := countable
      obtain ⟨steps, temp, readLength, count, outer, inner, enters, measures, outside, inside, rfl⟩ :=
        lays
      have short : parts.length ≤ 0x7fffffffffffffff := by omega
      simp only [flatten, Laying.on_bind, on_enter distinct enters, on_read distinct measures,
        Laying.on_lengthOf short,
        flattenReads_of_lays types owner distinct parts (by omega) fewParts outside,
        flattenMembers_of_lays types owner distinct members fewMembers inside, Laying.on_pure,
        Fragment.after_bind_append]

theorem flattenOutputs_of_lays (types : TypeOracle) (owner : Option Nat) {table : AccessTable}
    (distinct : table.Distinct) :
    ∀ (parts : List Pattern) {call : Access} {position : Nat} {fragment : Fragment},
      position + parts.length ≤ 0x100000000 → PartsCountable parts →
      LaysOutputs types owner table call parts position fragment →
      (flattenOutputs types owner call parts position).on table = (.ok fragment, table)
  | [], call, position, fragment, _, _, lays => by
      simp only [LaysOutputs] at lays
      rw [lays, flattenOutputs, Laying.on_pure]
  | part :: parts, call, position, fragment, few, countable, lays => by
      simp only [LaysOutputs] at lays
      simp only [PartsCountable] at countable
      rw [List.length_cons] at few
      have inBounds : position ≤ 0xffffffff := by omega
      obtain ⟨temp, head, tail, found, first, later, rfl⟩ := lays
      simp only [flattenOutputs, Laying.on_bind, Laying.on_count inBounds, Laying.on_modifyGet,
        distinct.output_eq found, flatten_of_lays types owner distinct part countable.1 first,
        flattenOutputs_of_lays types owner distinct parts (by omega) countable.2 later,
        Laying.on_pure]

theorem flattenReads_of_lays (types : TypeOracle) (owner : Option Nat) {table : AccessTable}
    (distinct : table.Distinct) :
    ∀ (parts : List Pattern) {kind : Nat → AccessKind} {position : Nat} {input : Temp}
      {fragment : Fragment}, position + parts.length ≤ 0x100000000 → PartsCountable parts →
      LaysReads types owner table kind parts position input fragment →
      (flattenReads types owner kind parts position input).on table = (.ok fragment, table)
  | [], kind, position, input, fragment, _, _, lays => by
      simp only [LaysReads] at lays
      rw [lays, flattenReads, Laying.on_pure]
  | part :: parts, kind, position, input, fragment, few, countable, lays => by
      simp only [LaysReads] at lays
      simp only [PartsCountable] at countable
      rw [List.length_cons] at few
      have inBounds : position ≤ 0xffffffff := by omega
      obtain ⟨step, temp, head, tail, reads, first, later, rfl⟩ := lays
      simp only [flattenReads, Laying.on_bind, Laying.on_count inBounds, on_read distinct reads,
        flatten_of_lays types owner distinct part countable.1 first,
        flattenReads_of_lays types owner distinct parts (by omega) countable.2 later,
        Laying.on_pure]

theorem flattenMembers_of_lays (types : TypeOracle) (owner : Option Nat) {table : AccessTable}
    (distinct : table.Distinct) :
    ∀ (members : List (Member × Pattern)) {input : Temp} {fragment : Fragment},
      MembersCountable members → LaysMembers types owner table members input fragment →
      (flattenMembers types owner members input).on table = (.ok fragment, table)
  | [], input, fragment, _, lays => by
      simp only [LaysMembers] at lays
      rw [lays, flattenMembers, Laying.on_pure]
  | (member, pattern) :: members, input, fragment, countable, lays => by
      simp only [LaysMembers] at lays
      simp only [MembersCountable] at countable
      obtain ⟨step, temp, head, tail, reads, first, later, rfl⟩ := lays
      simp only [flattenMembers, Laying.on_bind, on_read distinct reads,
        flatten_of_lays types owner distinct pattern countable.1 first,
        flattenMembers_of_lays types owner distinct members countable.2 later, Laying.on_pure]

end

end Pattern

end MatchCompiler
