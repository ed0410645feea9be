import MatchCompiler.Proofs.Pattern.Layout

/-!
# Patterns inside of patterns

A pattern is laid out with everything that is inside of it, each part about the
temp of the value that it examines.
-/

set_option autoImplicit false

namespace MatchCompiler

namespace Pattern

inductive Contains : Pattern → Pattern → Prop
  | self (pattern : Pattern) : Contains pattern pattern
  | part {input : Ty} {declared : Option Ty} {shape : Shape} {parts : List Pattern}
      {members : List (Member × Pattern)} {name : Option Symbol} {part inner : Pattern}
      (positional : part ∈ parts) (below : Contains part inner) :
      Contains (.compound input declared (some (shape, parts)) members name) inner
  | member {input : Ty} {declared : Option Ty} {positional : Option (Shape × List Pattern)}
      {members : List (Member × Pattern)} {name : Option Symbol} {member : Member}
      {part inner : Pattern} (named : (member, part) ∈ members) (below : Contains part inner) :
      Contains (.compound input declared positional members name) inner

variable {types : TypeOracle} {owner : Option Nat} {table : AccessTable} {temp : Temp}
  {fragment wider : Fragment} {pattern part : Pattern}

/-- A fragment includes the one of a pattern, about a temp of the type that the
pattern examines. -/
def LaidInside (types : TypeOracle) (owner : Option Nat) (table : AccessTable)
    (fragment : Fragment) (part : Pattern) : Prop :=
  ∃ temp own, Lays types owner table part temp own ∧ table.typeOf temp = part.input ∧
    own.steps ⊆ fragment.steps

theorem LaidInside.widen (inside : LaidInside types owner table fragment part)
    (subset : fragment.steps ⊆ wider.steps) : LaidInside types owner table wider part := by
  obtain ⟨temp, own, lays, typed, within⟩ := inside
  exact ⟨temp, own, lays, typed, List.Subset.trans within subset⟩

theorem laidInside_of_outputs {call : Access} {parts : List Pattern} (member : part ∈ parts) :
    ∀ {position : Nat} {fragment : Fragment},
      LaysOutputs types owner table call parts position fragment →
      LaidInside types owner table fragment part := by
  induction parts with
  | nil => exact absurd member List.not_mem_nil
  | cons first rest ih =>
      intro position fragment laid
      simp only [LaysOutputs] at laid
      obtain ⟨temp, head, tail, found, own, later, rfl⟩ := laid
      rcases List.mem_cons.mp member with rfl | inRest
      · exact ⟨temp, head, own, AccessTable.typeOf_of_temp? found, by simp⟩
      · exact (ih inRest later).widen (by simp)

theorem laidInside_of_reads {kind : Nat → AccessKind} {parts : List Pattern}
    (member : part ∈ parts) : ∀ {position : Nat} {input : Temp} {fragment : Fragment},
      LaysReads types owner table kind parts position input fragment →
      LaidInside types owner table fragment part := by
  induction parts with
  | nil => exact absurd member List.not_mem_nil
  | cons first rest ih =>
      intro position input fragment laid
      simp only [LaysReads] at laid
      obtain ⟨step, temp, head, tail, ⟨_, _, _, found⟩, own, later, rfl⟩ := laid
      rcases List.mem_cons.mp member with rfl | inRest
      · exact ⟨temp, head, own, AccessTable.typeOf_of_temp? found, by simp⟩
      · exact (ih inRest later).widen (by simp)

theorem laidInside_of_members {members : List (Member × Pattern)} {access : Member}
    (member : (access, part) ∈ members) : ∀ {input : Temp} {fragment : Fragment},
      LaysMembers types owner table members input fragment →
      LaidInside types owner table fragment part := by
  induction members with
  | nil => exact absurd member List.not_mem_nil
  | cons first rest ih =>
      intro input fragment laid
      simp only [LaysMembers] at laid
      obtain ⟨step, temp, head, tail, ⟨_, _, _, found⟩, own, later, rfl⟩ := laid
      rcases List.mem_cons.mp member with rfl | inRest
      · exact ⟨temp, head, own, AccessTable.typeOf_of_temp? found, by simp⟩
      · exact (ih inRest later).widen (by simp)

/-- Whatever the shape of a compound pattern, it is laid out with the demands that
it makes at first, its positional parts and its members. -/
theorem exists_of_lays_compound {input : Ty} {declared : Option Ty}
    {positional : Option (Shape × List Pattern)} {members : List (Member × Pattern)}
    {name : Option Symbol}
    (laid : Lays types owner table (.compound input declared positional members name) temp fragment) :
    ∃ steps narrowed inside, Enters types declared table temp steps narrowed ∧
      steps ⊆ fragment.steps ∧ LaysMembers types owner table members narrowed inside ∧
      inside.steps ⊆ fragment.steps ∧
      ∀ shape parts, positional = some (shape, parts) →
        ∀ part ∈ parts, LaidInside types owner table fragment part := by
  match positional with
  | none =>
      simp only [Lays] at laid
      obtain ⟨steps, narrowed, inside, enters, laidMembers, rfl⟩ := laid
      exact ⟨steps, narrowed, inside, enters, by simp, laidMembers, by simp, by simp⟩
  | some (.method called, parts) =>
      simp only [Lays] at laid
      obtain ⟨steps, narrowed, call, outer, inside, enters, _, outputs, laidMembers, rfl⟩ := laid
      refine ⟨steps, narrowed, inside, enters, by simp, laidMembers,
        fun step inInside => by simp [inInside], ?_⟩
      rintro _ _ ⟨⟩ part member
      exact (laidInside_of_outputs member outputs).widen fun step inOuter => by simp [inOuter]
  | some (.tuple, parts) =>
      simp only [Lays] at laid
      obtain ⟨steps, narrowed, outer, inside, enters, reads, laidMembers, rfl⟩ := laid
      refine ⟨steps, narrowed, inside, enters, by simp, laidMembers,
        fun step inInside => by simp [inInside], ?_⟩
      rintro _ _ ⟨⟩ part member
      exact (laidInside_of_reads member reads).widen fun step inOuter => by simp [inOuter]
  | some (.indexed length lengthType, parts) =>
      simp only [Lays] at laid
      obtain ⟨steps, narrowed, readLength, count, outer, inside, enters, _, reads, laidMembers, rfl⟩ :=
        laid
      refine ⟨steps, narrowed, inside, enters, by simp, laidMembers,
        fun step inInside => by simp [inInside], ?_⟩
      rintro _ _ ⟨⟩ part member
      exact (laidInside_of_reads member reads).widen fun step inOuter => by simp [inOuter]

theorem laidInside_of_contains (contains : pattern.Contains part) :
    ∀ {temp : Temp} {fragment : Fragment}, Lays types owner table pattern temp fragment →
      table.typeOf temp = pattern.input → LaidInside types owner table fragment part := by
  induction contains with
  | self pattern => exact fun laid typed => ⟨_, _, laid, typed, List.Subset.refl _⟩
  | part positional _ ih =>
      intro temp fragment laid _
      obtain ⟨_, _, _, _, _, _, _, parts⟩ := exists_of_lays_compound laid
      obtain ⟨own, head, lays, typed, within⟩ := parts _ _ rfl _ positional
      exact (ih lays typed).widen within
  | member named _ ih =>
      intro temp fragment laid _
      obtain ⟨_, _, inside, _, _, laidMembers, subset, _⟩ := exists_of_lays_compound laid
      obtain ⟨own, head, lays, typed, within⟩ := laidInside_of_members named laidMembers
      exact (ih lays typed).widen (List.Subset.trans within subset)

end Pattern

end MatchCompiler
