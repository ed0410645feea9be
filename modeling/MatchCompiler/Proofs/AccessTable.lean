import MatchCompiler.AccessTable
import MatchCompiler.Proofs.Register

/-!
# Tables only grow

Interning leaves every temp and every access where it is, and enters nothing
twice, so that what is there is found where it is. A lawful table has a place for
each of its temps among the outputs of the access that fills it.
-/

set_option autoImplicit false

namespace MatchCompiler

namespace AccessTable

/-- The first temp is the match input, which no access yields. -/
def Rooted (table : AccessTable) : Prop :=
  ∃ declared, table.temp? .root = some declared ∧ declared.source = none

theorem temp?_inside {table : AccessTable} {temp : Temp} {declared : TempEntry}
    (found : table.temp? temp = some declared) : temp.index < table.temps.length :=
  (List.getElem?_eq_some_iff.mp found).1

theorem mem_outputsOf {table : AccessTable} {access : Access} {temp : Temp} :
    temp ∈ table.outputsOf access ↔
      ∃ declared, table.temp? temp = some declared ∧ declared.source = some access := by
  unfold outputsOf temp?
  simp only [List.mem_map, List.mem_filter, beq_iff_eq, Prod.exists, List.mem_zipIdx_iff_getElem?]
  constructor
  · rintro ⟨declared, index, ⟨found, filledBy⟩, rfl⟩
    exact ⟨declared, found, filledBy⟩
  · rintro ⟨declared, found, filledBy⟩
    exact ⟨declared, temp.index, ⟨found, filledBy⟩, rfl⟩

theorem typeOf_of_temp? {table : AccessTable} {temp : Temp} {declared : TempEntry}
    (found : table.temp? temp = some declared) : table.typeOf temp = declared.type := by
  simp [typeOf, found]

/-- One table continues another one. -/
structure Grows (before after : AccessTable) : Prop where
  temps : before.temps <+: after.temps
  accesses : before.accesses <+: after.accesses

namespace Grows

variable {before middle after : AccessTable}

theorem refl (table : AccessTable) : table.Grows table :=
  ⟨List.prefix_refl _, List.prefix_refl _⟩

theorem trans (front : before.Grows middle) (back : middle.Grows after) : before.Grows after :=
  ⟨front.temps.trans back.temps, front.accesses.trans back.accesses⟩

theorem temp? (grows : before.Grows after) {temp : Temp} {declared : TempEntry}
    (found : before.temp? temp = some declared) : after.temp? temp = some declared := by
  obtain ⟨inside, rfl⟩ := List.getElem?_eq_some_iff.mp found
  exact List.prefix_iff_getElem?.mp grows.temps temp.index inside

theorem access? (grows : before.Grows after) {access : Access} {entry : AccessEntry}
    (found : before.access? access = some entry) : after.access? access = some entry := by
  obtain ⟨inside, rfl⟩ := List.getElem?_eq_some_iff.mp found
  exact List.prefix_iff_getElem?.mp grows.accesses access.index inside

theorem typeOf (grows : before.Grows after) {temp : Temp} {declared : TempEntry}
    (found : before.temp? temp = some declared) : after.typeOf temp = before.typeOf temp := by
  rw [typeOf_of_temp? found, typeOf_of_temp? (grows.temp? found)]

end Grows

/-- Every temp but the match input is an output of an access, and what a cast
yields has the type of the cast. -/
structure Lawful (table : AccessTable) : Prop where
  rooted : table.Rooted
  sourced : ∀ {temp declared source}, table.temp? temp = some declared →
    declared.source = some source → ∃ entry, table.access? source = some entry ∧
      declared.output < entry.kind.outputCount ∧
      ∀ type, entry.kind = .cast type → declared.type = type

theorem lawful_ofInput (type : Ty) : (ofInput type).Lawful where
  rooted := ⟨_, rfl, rfl⟩
  sourced := by
    intro temp declared source found filledBy
    obtain ⟨inside, rfl⟩ := List.getElem?_eq_some_iff.mp found
    obtain rfl : temp = .root := by
      cases temp
      exact congrArg Temp.mk (Nat.lt_one_iff.mp inside)
    cases filledBy

/-- No temp and no access has two numbers. -/
structure Distinct (table : AccessTable) : Prop where
  temps : table.temps.Nodup
  accesses : table.accesses.Nodup

theorem distinct_ofInput (type : Ty) : (ofInput type).Distinct :=
  ⟨List.nodup_singleton _, List.nodup_nil⟩

namespace Distinct

variable {table : AccessTable} {input temp : Temp} {kind : AccessKind} {made source : Access}
  {position : Nat} {type : Ty}

theorem access_eq (distinct : table.Distinct) (known : table.access? made = some ⟨input, kind⟩) :
    table.access input kind = (made, table) := by
  unfold access
  rw [idxOf?_of_nodup distinct.accesses known]

theorem output_eq (distinct : table.Distinct)
    (found : table.temp? temp = some ⟨type, some source, position⟩) :
    table.output source position type = (temp, table) := by
  unfold output
  rw [idxOf?_of_nodup distinct.temps found]

end Distinct

/-- A step of laying out patterns: the table grows, stays lawful and without
repetitions, and something is so in every table that continues it. -/
structure Extends (before after : AccessTable) (laidOut : AccessTable → Prop) : Prop where
  grows : before.Grows after
  lawful : before.Lawful → after.Lawful
  distinct : before.Distinct → after.Distinct
  laidOut : ∀ final, after.Grows final → laidOut final

theorem Extends.refl {table : AccessTable} {laidOut : AccessTable → Prop}
    (always : ∀ final, table.Grows final → laidOut final) : table.Extends table laidOut :=
  ⟨.refl table, id, id, always⟩

theorem Extends.trans {before middle after : AccessTable} {first second : AccessTable → Prop}
    (front : before.Extends middle first) (back : middle.Extends after second) :
    before.Extends after fun final => first final ∧ second final where
  grows := front.grows.trans back.grows
  lawful := fun lawful => back.lawful (front.lawful lawful)
  distinct := fun distinct => back.distinct (front.distinct distinct)
  laidOut := fun final grows =>
    ⟨front.laidOut final (back.grows.trans grows), back.laidOut final grows⟩

theorem Extends.imp {before after : AccessTable} {first second : AccessTable → Prop}
    (extended : before.Extends after first)
    (implies : ∀ final, after.Grows final → first final → second final) :
    before.Extends after second :=
  ⟨extended.grows, extended.lawful, extended.distinct, fun final grows =>
    implies final grows (extended.laidOut final grows)⟩

theorem access_extends {table after : AccessTable} {input : Temp} {kind : AccessKind}
    {made : Access} (interned : table.access input kind = (made, after)) :
    table.Extends after fun final => final.access? made = some ⟨input, kind⟩ := by
  unfold access at interned
  split at interned
  · rename_i index found
    cases interned
    exact .refl fun final grows => grows.access? (getElem?_of_idxOf? found)
  · rename_i absent
    cases interned
    have grows : table.Grows { table with accesses := table.accesses ++ [⟨input, kind⟩] } :=
      ⟨List.prefix_refl _, List.prefix_append _ _⟩
    refine ⟨grows, fun lawful => ⟨lawful.rooted, fun found filledBy => ?_⟩,
      fun distinct => ⟨distinct.temps, nodup_snoc distinct.accesses absent⟩,
      fun final further => further.access? (by simp [access?])⟩
    obtain ⟨entry, known, output⟩ := lawful.sourced found filledBy
    exact ⟨entry, grows.access? known, output⟩

theorem output_extends {table after : AccessTable} {source : Access} {entry : AccessEntry}
    {position : Nat} {type : Ty} {temp : Temp} (known : table.access? source = some entry)
    (inRange : position < entry.kind.outputCount)
    (typed : ∀ other, entry.kind = .cast other → type = other)
    (interned : table.output source position type = (temp, after)) :
    table.Extends after fun final => final.temp? temp = some ⟨type, some source, position⟩ := by
  unfold output at interned
  split at interned
  · rename_i index found
    cases interned
    exact .refl fun final grows => grows.temp? (getElem?_of_idxOf? found)
  · rename_i absent
    cases interned
    have grows : table.Grows
        { table with temps := table.temps ++ [⟨type, some source, position⟩] } :=
      ⟨List.prefix_append _ _, List.prefix_refl _⟩
    refine ⟨grows, fun lawful => ⟨?_, ?_⟩,
      fun distinct => ⟨nodup_snoc distinct.temps absent, distinct.accesses⟩,
      fun final further => further.temp? (by simp [temp?])⟩
    · obtain ⟨declared, found, noSource⟩ := lawful.rooted
      exact ⟨declared, grows.temp? found, noSource⟩
    · intro other declared otherSource found filledBy
      rcases getElem?_snoc_eq_some found with before | ⟨_, rfl⟩
      · exact lawful.sourced before filledBy
      · obtain rfl := Option.some.inj filledBy
        exact ⟨entry, known, inRange, typed⟩

end AccessTable

end MatchCompiler
