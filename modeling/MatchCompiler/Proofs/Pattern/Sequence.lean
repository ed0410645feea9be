import MatchCompiler.Proofs.Checklist
import MatchCompiler.Proofs.Pattern.Layout

/-!
# Fragments come in order

In the fragment of a pattern every temp is yielded before it is used, a value is
tested before it is cast and measured before its elements are read, and no access
is made to a value that may be null.
-/

set_option autoImplicit false

namespace MatchCompiler

namespace Step

/-- A cast comes behind the type test that it trusts. The test behind which
nothing is ever done will do as well. -/
def CastGuarded (table : AccessTable) (past : List Step) (step : Step) : Prop :=
  ∀ made entry type, step = .access made → table.access? made = some entry →
    entry.kind = .cast type →
    .test ⟨entry.input, .ofType type⟩ ∈ past ∨ .test ⟨entry.input, .never⟩ ∈ past

/-- Steps behind which a value is not null: its static type excludes null, or it
was tested, or a cast let it through. -/
def Vouched (types : TypeOracle) (table : AccessTable) (past : List Step) (temp : Temp) : Prop :=
  types.canBeNull (table.typeOf temp) = false ∨ .test ⟨temp, .nonNull⟩ ∈ past ∨
    ∃ cast entry type, .access cast ∈ past ∧ table.access? cast = some entry ∧
      entry.kind = .cast type ∧ temp ∈ table.outputsOf cast

/-- An access to a value that is not null, or a cast of none at all, behind the
test that is never true. -/
def NullGuarded (types : TypeOracle) (table : AccessTable) (past : List Step) (step : Step) : Prop :=
  ∀ made, step = .access made → ∃ entry, table.access? made = some entry ∧
    (Vouched types table past entry.input ∨
      (∃ type, entry.kind = .cast type) ∧ .test ⟨entry.input, .never⟩ ∈ past)

/-- A member of the value was found to be a number above the position. -/
def Measured (table : AccessTable) (past : List Step) (input : Temp) (position : Nat) : Prop :=
  ∃ (read : Access) (member : Member) (count : Temp) (length : Int),
    table.access? read = some ⟨input, .ofMember member⟩ ∧ count ∈ table.outputsOf read ∧
      .test ⟨count, .equals (.int length)⟩ ∈ past ∧ position < length

/-- An element is read behind the test of the length. -/
def LengthGuarded (table : AccessTable) (past : List Step) (step : Step) : Prop :=
  ∀ made entry position, step = .access made → table.access? made = some entry →
    entry.kind = .element position → Measured table past entry.input position

structure Prepared (types : TypeOracle) (table : AccessTable) (past : List Step) (step : Step) :
    Prop where
  supplied : Supplied table past step
  guarded : CastGuarded table past step
  vouched : NullGuarded types table past step
  measured : LengthGuarded table past step

/-- Steps behind which an access of a kind can be made. -/
structure Admits (types : TypeOracle) (table : AccessTable) (past : List Step) (input : Temp)
    (kind : AccessKind) : Prop where
  vouched : Vouched types table past input ∨
    (∃ type, kind = .cast type) ∧ .test ⟨input, .never⟩ ∈ past
  typed : ∀ type, kind = .cast type →
    .test ⟨input, .ofType type⟩ ∈ past ∨ .test ⟨input, .never⟩ ∈ past
  measured : ∀ position, kind = .element position → Measured table past input position

variable {types : TypeOracle} {table : AccessTable} {past steps : List Step} {input temp : Temp}

theorem prepared_test {predicate : Predicate} (provided : Provides table past input) :
    Prepared types table past (.test ⟨input, predicate⟩) where
  supplied := by
    intro other operand
    obtain rfl := Option.some.inj operand
    exact provided
  guarded := nofun
  vouched := nofun
  measured := nofun

theorem prepared_access {made : Access} {kind : AccessKind}
    (known : table.access? made = some ⟨input, kind⟩) (provided : Provides table past input)
    (admits : Admits types table past input kind) :
    Prepared types table past (.access made) where
  supplied := by
    intro other operand
    simp only [operand?, known, Option.map_some, Option.some.injEq] at operand
    exact operand ▸ provided
  guarded := by
    rintro _ entry type ⟨⟩ found isCast
    obtain rfl := Option.some.inj (known.symm.trans found)
    exact admits.typed type isCast
  vouched := by
    rintro _ ⟨⟩
    exact ⟨_, known, admits.vouched⟩
  measured := by
    rintro _ entry position ⟨⟩ found isElement
    obtain rfl := Option.some.inj (known.symm.trans found)
    exact admits.measured position isElement

theorem provides_of_access {made : Access} {entry : AccessEntry} {declared : TempEntry}
    (member : .access made ∈ steps) (known : table.access? made = some entry)
    (found : table.temp? temp = some declared) (filledBy : declared.source = some made) :
    Provides table steps temp :=
  Or.inr ⟨made, member, by simp [known], AccessTable.mem_outputsOf.mpr ⟨declared, found, filledBy⟩⟩

theorem Provides.append_left (provided : Provides table past temp) (more : List Step) :
    Provides table (past ++ more) temp :=
  provided.mono (List.subset_append_left past more)

theorem Vouched.append_left (vouched : Vouched types table past temp) (more : List Step) :
    Vouched types table (past ++ more) temp := by
  rcases vouched with excluded | tested | ⟨cast, entry, type, member, rest⟩
  · exact Or.inl excluded
  · exact Or.inr (Or.inl (List.mem_append_left _ tested))
  · exact Or.inr (Or.inr ⟨cast, entry, type, List.mem_append_left _ member, rest⟩)

namespace Admits

variable {kind : AccessKind}

theorem append_left (admits : Admits types table past input kind) (more : List Step) :
    Admits types table (past ++ more) input kind where
  vouched := admits.vouched.imp (·.append_left more) fun ⟨isCast, impossible⟩ =>
    ⟨isCast, List.mem_append_left _ impossible⟩
  typed := fun type isCast => (admits.typed type isCast).imp (List.mem_append_left _)
    (List.mem_append_left _)
  measured := fun position isElement => by
    obtain ⟨read, member, count, length, known, filled, tested, above⟩ :=
      admits.measured position isElement
    exact ⟨read, member, count, length, known, filled, List.mem_append_left _ tested, above⟩

theorem ofMember (vouched : Vouched types table past input) (member : Member) :
    Admits types table past input (.ofMember member) where
  vouched := Or.inl vouched
  typed := by cases member <;> exact nofun
  measured := by cases member <;> exact nofun

theorem component (vouched : Vouched types table past input) (position : Nat) :
    Admits types table past input (.component position) :=
  ⟨Or.inl vouched, nofun, nofun⟩

theorem element {position : Nat} (vouched : Vouched types table past input)
    (measured : Measured table past input position) :
    Admits types table past input (.element position) where
  vouched := Or.inl vouched
  typed := nofun
  measured := by
    rintro _ ⟨⟩
    exact measured

end Admits

end Step

/-- A fragment that can be carried out behind `past`. -/
structure Fragment.Sequenced (types : TypeOracle) (table : AccessTable) (past : List Step)
    (fragment : Fragment) : Prop where
  steps : Step.Throughout (Step.Prepared types table) past fragment.steps
  bound : ∀ binding ∈ fragment.bindings,
    Step.Provides table (past ++ fragment.steps) binding.temp

namespace Fragment.Sequenced

variable {types : TypeOracle} {table : AccessTable} {past steps : List Step}
  {front back fragment : Fragment}

theorem empty : Fragment.empty.Sequenced types table past :=
  ⟨Step.throughout_nil, fun _ member => absurd member List.not_mem_nil⟩

theorem append (first : front.Sequenced types table past)
    (second : back.Sequenced types table (past ++ front.steps)) :
    (front ++ back).Sequenced types table past where
  steps := Step.throughout_append.mpr ⟨first.steps, second.steps⟩
  bound := by
    intro binding member
    rw [steps_append, ← List.append_assoc]
    rcases List.mem_append.mp member with inFront | inBack
    · exact (first.bound binding inFront).append_left _
    · exact second.bound binding inBack

theorem after (first : Step.Throughout (Step.Prepared types table) past steps)
    (second : fragment.Sequenced types table (past ++ steps)) :
    (fragment.after steps).Sequenced types table past where
  steps := Step.throughout_append.mpr ⟨first, second.steps⟩
  bound := by
    intro binding member
    rw [steps_after, ← List.append_assoc]
    exact second.bound binding member

theorem bind (sequenced : fragment.Sequenced types table past) {name : Option Symbol} {temp : Temp}
    (provided : Step.Provides table past temp) : (fragment.bind name temp).Sequenced types table past where
  steps := sequenced.steps
  bound := by
    intro binding member
    rw [steps_bind]
    rcases List.mem_append.mp member with before | last
    · exact sequenced.bound binding before
    · cases name with
      | none => exact absurd last List.not_mem_nil
      | some name =>
          obtain rfl := List.mem_singleton.mp last
          exact provided.append_left _

end Fragment.Sequenced

namespace Pattern

variable {types : TypeOracle} {owner : Option Nat} {table : AccessTable} {past steps : List Step}
  {input temp : Temp} {step : Step} {kind : AccessKind} {type : Ty}

theorem Reads.prepared (reads : Reads table input kind type step temp)
    (provided : Step.Provides table past input)
    (admits : Step.Admits types table past input kind) :
    Step.Prepared types table past step ∧ Step.Provides table (past ++ [step]) temp := by
  obtain ⟨made, rfl, known, found⟩ := reads
  exact ⟨Step.prepared_access known provided admits,
    Step.provides_of_access (by simp) known found rfl⟩

theorem throughout_nullCheck (provided : Step.Provides table past input) :
    Step.Throughout (Step.Prepared types table) past (nullCheck types table input) := by
  unfold nullCheck
  split
  · simpa using Step.prepared_test provided
  · exact Step.throughout_nil

theorem vouched_nullCheck (types : TypeOracle) (table : AccessTable) (past : List Step)
    (input : Temp) : Step.Vouched types table (past ++ nullCheck types table input) input := by
  unfold nullCheck
  cases excluded : types.canBeNull (table.typeOf input) with
  | true => exact Or.inr (Or.inl (by simp))
  | false => exact Or.inl excluded

theorem Reads.vouched {target : Ty} {cast : Step}
    (reads : Reads table input (.cast target) type cast temp) (member : cast ∈ past) :
    Step.Vouched types table past temp := by
  obtain ⟨made, rfl, known, found⟩ := reads
  exact Or.inr (Or.inr ⟨made, _, target, member, known, rfl,
    AccessTable.mem_outputsOf.mpr ⟨_, found, rfl⟩⟩)

theorem Converts.vouched {target : Ty}
    (converts : Converts types true target table input steps temp) :
    Step.Vouched types table (past ++ steps) temp := by
  unfold Converts at converts
  split at converts
  · obtain ⟨rfl, rfl⟩ := converts
    exact vouched_nullCheck ..
  · obtain ⟨cast, reads, rfl⟩ := converts
    exact reads.vouched (by simp)
  · obtain ⟨cast, reads, rfl⟩ := converts
    exact reads.vouched (by simp)

theorem Enters.vouched {target : Option Ty}
    (enters : Enters types target table input steps temp) :
    Step.Vouched types table (past ++ steps) temp := by
  cases target with
  | none =>
      obtain ⟨rfl, rfl⟩ := enters
      exact vouched_nullCheck ..
  | some type => exact Converts.vouched enters

theorem Converts.prepared {strict : Bool} {target : Ty}
    (converts : Converts types strict target table input steps temp)
    (provided : Step.Provides table past input) :
    Step.Throughout (Step.Prepared types table) past steps ∧
      Step.Provides table (past ++ steps) temp := by
  unfold Converts at converts
  split at converts
  · obtain ⟨rfl, rfl⟩ := converts
    refine ⟨?_, provided.append_left _⟩
    split
    · exact throughout_nullCheck provided
    · exact Step.throughout_nil
  · obtain ⟨cast, reads, rfl⟩ := converts
    have tested := provided.append_left (nullCheck types table input)
    have behind := tested.append_left [.test ⟨input, .ofType target⟩]
    have vouched := (vouched_nullCheck types table past input).append_left
      [.test ⟨input, .ofType target⟩]
    have admits : Step.Admits types table
        (past ++ nullCheck types table input ++ [.test ⟨input, .ofType target⟩]) input
        (.cast target) := by
      refine ⟨Or.inl vouched, ?_, nofun⟩
      rintro _ ⟨⟩
      exact Or.inl (by simp)
    obtain ⟨prepared, yielded⟩ := reads.prepared behind admits
    constructor
    · refine Step.throughout_append.mpr ⟨throughout_nullCheck provided, ?_⟩
      exact Step.throughout_cons.mpr ⟨Step.prepared_test tested,
        Step.throughout_cons.mpr ⟨prepared, Step.throughout_nil⟩⟩
    · simpa using yielded
  · obtain ⟨cast, reads, rfl⟩ := converts
    have behind := provided.append_left [.test ⟨input, .never⟩]
    have impossible : Step.test ⟨input, .never⟩ ∈ past ++ [Step.test ⟨input, .never⟩] := by simp
    have admits : Step.Admits types table (past ++ [.test ⟨input, .never⟩]) input (.cast target) :=
      ⟨Or.inr ⟨⟨target, rfl⟩, impossible⟩, fun _ _ => Or.inr impossible, nofun⟩
    obtain ⟨prepared, yielded⟩ := reads.prepared behind admits
    constructor
    · exact Step.throughout_cons.mpr ⟨Step.prepared_test provided,
        Step.throughout_cons.mpr ⟨prepared, Step.throughout_nil⟩⟩
    · simpa using yielded

theorem Enters.prepared {target : Option Ty} (enters : Enters types target table input steps temp)
    (provided : Step.Provides table past input) :
    Step.Throughout (Step.Prepared types table) past steps ∧
      Step.Provides table (past ++ steps) temp := by
  cases target with
  | none =>
      obtain ⟨rfl, rfl⟩ := enters
      exact ⟨throughout_nullCheck provided, provided.append_left _⟩
  | some type => exact Converts.prepared enters provided

mutual

theorem lays_sequenced (types : TypeOracle) (owner : Option Nat) (table : AccessTable) :
    ∀ (pattern : Pattern) {input : Temp} {fragment : Fragment} {past : List Step},
      Step.Provides table past input → Lays types owner table pattern input fragment →
      fragment.Sequenced types table past
  | .discard _, input, fragment, past, provided, lays => by
      simp only [Lays] at lays
      rw [lays]
      exact .empty
  | .var _ name, input, fragment, past, provided, lays => by
      simp only [Lays] at lays
      rw [lays]
      exact .bind .empty provided
  | .typed _ target name, input, fragment, past, provided, lays => by
      simp only [Lays] at lays
      obtain ⟨steps, temp, converts, rfl⟩ := lays
      obtain ⟨prepared, yielded⟩ := converts.prepared provided
      exact .after prepared (.bind .empty yielded)
  | .constant _ value type, input, fragment, past, provided, lays => by
      simp only [Lays] at lays
      split at lays
      · rw [lays]
        exact ⟨by simpa using Step.prepared_test provided, by simp⟩
      · obtain ⟨steps, temp, converts, rfl⟩ := lays
        obtain ⟨prepared, yielded⟩ := converts.prepared provided
        refine ⟨Step.throughout_append.mpr ⟨prepared, ?_⟩, by simp⟩
        simpa using Step.prepared_test yielded
  | .compound _ target none members name, input, fragment, past, provided, lays => by
      simp only [Lays] at lays
      obtain ⟨steps, temp, inner, enters, inside, rfl⟩ := lays
      obtain ⟨prepared, yielded⟩ := enters.prepared provided
      exact .after prepared (.bind
        (laysMembers_sequenced types owner table members yielded enters.vouched inside) yielded)
  | .compound _ target (some (.method method, parts)) members name, input, fragment, past,
      provided, lays => by
      simp only [Lays] at lays
      obtain ⟨steps, temp, call, outer, inner, enters, known, outside, inside, rfl⟩ := lays
      obtain ⟨prepared, yielded⟩ := enters.prepared provided
      have vouched : Step.Vouched types table (past ++ steps) temp := enters.vouched
      have calls : Step.Throughout (Step.Prepared types table) (past ++ steps) [.access call] := by
        simpa using Step.prepared_access known yielded ⟨Or.inl vouched, nofun, nofun⟩
      have outputs : outer.Sequenced types table (past ++ steps ++ [.access call]) :=
        laysOutputs_sequenced types owner table parts known (by simp) outside
      exact .after prepared (.bind (.append (.after calls outputs)
        (laysMembers_sequenced types owner table members (yielded.append_left _)
          (vouched.append_left _) inside)) yielded)
  | .compound _ target (some (.tuple, parts)) members name, input, fragment, past, provided,
      lays => by
      simp only [Lays] at lays
      obtain ⟨steps, temp, outer, inner, enters, outside, inside, rfl⟩ := lays
      obtain ⟨prepared, yielded⟩ := enters.prepared provided
      have vouched : Step.Vouched types table (past ++ steps) temp := enters.vouched
      have reads := laysReads_sequenced types owner table parts yielded
        (fun position _ => .component vouched _) outside
      exact .after prepared (.bind (.append reads
        (laysMembers_sequenced types owner table members (yielded.append_left _)
          (vouched.append_left _) inside)) yielded)
  | .compound _ target (some (.indexed length lengthType, parts)) members name, input, fragment,
      past, provided, lays => by
      simp only [Lays] at lays
      obtain ⟨steps, temp, readLength, count, outer, inner, enters, measures, outside, inside, rfl⟩ :=
        lays
      obtain ⟨prepared, yielded⟩ := enters.prepared provided
      have vouched : Step.Vouched types table (past ++ steps) temp := enters.vouched
      obtain ⟨lengthPrepared, lengthYielded⟩ :=
        measures.prepared yielded (.ofMember vouched length)
      let measure := [readLength, .test ⟨count, .equals (.int parts.length)⟩]
      have measured : Step.Throughout (Step.Prepared types table) (past ++ steps) measure := by
        exact Step.throughout_cons.mpr ⟨lengthPrepared,
          Step.throughout_cons.mpr ⟨Step.prepared_test lengthYielded, Step.throughout_nil⟩⟩
      have bounds : ∀ position < parts.length,
          Step.Measured table (past ++ steps ++ measure) temp (0 + position) := by
        intro position inside
        obtain ⟨made, rfl, known, found⟩ := measures
        exact ⟨made, length, count, parts.length, known, AccessTable.mem_outputsOf.mpr
          ⟨_, found, rfl⟩, by simp [measure], by omega⟩
      have reads := laysReads_sequenced types owner table parts (yielded.append_left measure)
        (fun position inside => .element (vouched.append_left measure) (bounds position inside))
        outside
      exact .after prepared (.bind (.append (.after measured reads)
        (laysMembers_sequenced types owner table members (yielded.append_left _)
          (vouched.append_left _) inside)) yielded)

theorem laysOutputs_sequenced (types : TypeOracle) (owner : Option Nat) (table : AccessTable) :
    ∀ (parts : List Pattern) {call : Access} {entry : AccessEntry} {position : Nat}
      {fragment : Fragment} {past : List Step}, table.access? call = some entry →
      .access call ∈ past → LaysOutputs types owner table call parts position fragment →
      fragment.Sequenced types table past
  | [], call, entry, position, fragment, past, known, called, lays => by
      simp only [LaysOutputs] at lays
      rw [lays]
      exact .empty
  | part :: parts, call, entry, position, fragment, past, known, called, lays => by
      simp only [LaysOutputs] at lays
      obtain ⟨temp, head, tail, found, first, later, rfl⟩ := lays
      exact .append
        (lays_sequenced types owner table part (Step.provides_of_access called known found rfl) first)
        (laysOutputs_sequenced types owner table parts known (List.mem_append_left _ called) later)

theorem laysReads_sequenced (types : TypeOracle) (owner : Option Nat) (table : AccessTable) :
    ∀ (parts : List Pattern) {kind : Nat → AccessKind} {position : Nat} {input : Temp}
      {fragment : Fragment} {past : List Step}, Step.Provides table past input →
      (∀ offset < parts.length, Step.Admits types table past input (kind (position + offset))) →
      LaysReads types owner table kind parts position input fragment →
      fragment.Sequenced types table past
  | [], kind, position, input, fragment, past, provided, admits, lays => by
      simp only [LaysReads] at lays
      rw [lays]
      exact .empty
  | part :: parts, kind, position, input, fragment, past, provided, admits, lays => by
      simp only [LaysReads] at lays
      obtain ⟨step, temp, head, tail, reads, first, later, rfl⟩ := lays
      obtain ⟨prepared, yielded⟩ := reads.prepared provided (admits 0 (by simp))
      have onward : ∀ offset < parts.length, Step.Admits types table
          (past ++ [step] ++ head.steps) input (kind (position + 1 + offset)) := by
        intro offset inside
        have further := admits (offset + 1) (by simpa using inside)
        rw [show position + 1 + offset = position + (offset + 1) by omega]
        exact (further.append_left _).append_left _
      exact .after (by simpa using prepared) (.append
        (lays_sequenced types owner table part yielded first)
        (laysReads_sequenced types owner table parts
          ((provided.append_left _).append_left _) onward later))

theorem laysMembers_sequenced (types : TypeOracle) (owner : Option Nat) (table : AccessTable) :
    ∀ (members : List (Member × Pattern)) {input : Temp} {fragment : Fragment}
      {past : List Step}, Step.Provides table past input → Step.Vouched types table past input →
      LaysMembers types owner table members input fragment → fragment.Sequenced types table past
  | [], input, fragment, past, provided, vouched, lays => by
      simp only [LaysMembers] at lays
      rw [lays]
      exact .empty
  | (member, pattern) :: members, input, fragment, past, provided, vouched, lays => by
      simp only [LaysMembers] at lays
      obtain ⟨step, temp, head, tail, reads, first, later, rfl⟩ := lays
      obtain ⟨prepared, yielded⟩ := reads.prepared provided (.ofMember vouched member)
      exact .after (by simpa using prepared) (.append
        (lays_sequenced types owner table pattern yielded first)
        (laysMembers_sequenced types owner table members
          ((provided.append_left _).append_left _) ((vouched.append_left _).append_left _) later))

end

end Pattern

end MatchCompiler
