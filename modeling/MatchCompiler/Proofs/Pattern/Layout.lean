import MatchCompiler.Proofs.Laying
import MatchCompiler.Proofs.Pattern.Size

/-!
# What patterns are laid out as

`Lays` says what the fragment of a pattern looks like in a finished table, with
no word on how the table came about. Laying out a pattern yields such a fragment
for every table that the table at hand may grow to.
-/

set_option autoImplicit false

namespace MatchCompiler

namespace Fragment

@[simp] theorem steps_append (front back : Fragment) :
    (front ++ back).steps = front.steps ++ back.steps := rfl

@[simp] theorem bindings_append (front back : Fragment) :
    (front ++ back).bindings = front.bindings ++ back.bindings := rfl

@[simp] theorem steps_after (fragment : Fragment) (steps : List Step) :
    (fragment.after steps).steps = steps ++ fragment.steps := rfl

@[simp] theorem bindings_after (fragment : Fragment) (steps : List Step) :
    (fragment.after steps).bindings = fragment.bindings := rfl

@[simp] theorem steps_bind (fragment : Fragment) (name : Option Symbol) (temp : Temp) :
    (fragment.bind name temp).steps = fragment.steps := rfl

@[simp] theorem bindings_bind (fragment : Fragment) (name : Option Symbol) (temp : Temp) :
    (fragment.bind name temp).bindings =
      fragment.bindings ++ (name.map (Binding.mk · temp)).toList := rfl

/-- Steps in front of all parts may as well stand in front of the first ones. -/
theorem after_bind_append (outer inner : Fragment) (name : Option Symbol) (temp : Temp)
    (steps more : List Step) :
    ((outer ++ inner).bind name temp).after (steps ++ more) =
      ((outer.after more ++ inner).bind name temp).after steps := by
  simp [after]

end Fragment

namespace Pattern

def Reads (table : AccessTable) (input : Temp) (kind : AccessKind) (type : Ty) (step : Step)
    (temp : Temp) : Prop :=
  ∃ made, step = .access made ∧ table.access? made = some ⟨input, kind⟩ ∧
    table.temp? temp = some ⟨type, some made, 0⟩

def Converts (types : TypeOracle) (strict : Bool) (target : Ty) (table : AccessTable)
    (input : Temp) (steps : List Step) (temp : Temp) : Prop :=
  match types.classify (table.typeOf input) target with
  | .always => steps = (if strict then nullCheck types table input else []) ∧ temp = input
  | .tested =>
      ∃ cast, Reads table input (.cast target) target cast temp ∧
        steps = nullCheck types table input ++ [.test ⟨input, .ofType target⟩, cast]
  | .never =>
      ∃ cast, Reads table input (.cast target) target cast temp ∧
        steps = [.test ⟨input, .never⟩, cast]

def Enters (types : TypeOracle) (declared : Option Ty) (table : AccessTable) (input : Temp)
    (steps : List Step) (temp : Temp) : Prop :=
  match declared with
  | some type => Converts types true type table input steps temp
  | none => steps = nullCheck types table input ∧ temp = input

mutual

/-- The fragment of a pattern that examines `input`, in a finished table. -/
def Lays (types : TypeOracle) (owner : Option Nat) (table : AccessTable) :
    Pattern → Temp → Fragment → Prop
  | .discard _, _, fragment => fragment = .empty
  | .var _ name, input, fragment => fragment = Fragment.empty.bind (some name) input
  | .typed _ declared name, input, fragment =>
      ∃ steps temp, Converts types true declared table input steps temp ∧
        fragment = (Fragment.empty.bind name temp).after steps
  | .constant _ value type, input, fragment =>
      if value.isNull then fragment = ⟨[.test ⟨input, .isNull⟩], []⟩
      else
        ∃ steps temp, Converts types false type table input steps temp ∧
          fragment = ⟨steps ++ [.test ⟨temp, .equals value⟩], []⟩
  | .compound _ declared none members name, input, fragment =>
      ∃ steps temp inner, Enters types declared table input steps temp ∧
        LaysMembers types owner table members temp inner ∧
        fragment = (inner.bind name temp).after steps
  | .compound _ declared (some (.method method, parts)) members name, input, fragment =>
      ∃ steps temp call outer inner, Enters types declared table input steps temp ∧
        table.access? call = some ⟨temp, .deconstruct method parts.length owner⟩ ∧
        LaysOutputs types owner table call parts 0 outer ∧
        LaysMembers types owner table members temp inner ∧
        fragment = ((outer.after [.access call] ++ inner).bind name temp).after steps
  | .compound _ declared (some (.tuple, parts)) members name, input, fragment =>
      ∃ steps temp outer inner, Enters types declared table input steps temp ∧
        LaysReads types owner table .component parts 0 temp outer ∧
        LaysMembers types owner table members temp inner ∧
        fragment = ((outer ++ inner).bind name temp).after steps
  | .compound _ declared (some (.indexed length lengthType, parts)) members name, input,
      fragment =>
      ∃ steps temp readLength count outer inner, Enters types declared table input steps temp ∧
        Reads table temp (.ofMember length) lengthType readLength count ∧
        LaysReads types owner table .element parts 0 temp outer ∧
        LaysMembers types owner table members temp inner ∧
        fragment =
          ((outer.after [readLength, .test ⟨count, .equals (.int parts.length)⟩] ++ inner).bind
            name temp).after steps

def LaysOutputs (types : TypeOracle) (owner : Option Nat) (table : AccessTable) (call : Access) :
    List Pattern → Nat → Fragment → Prop
  | [], _, fragment => fragment = .empty
  | part :: parts, position, fragment =>
      ∃ temp head tail, table.temp? temp = some ⟨part.input, some call, position⟩ ∧
        Lays types owner table part temp head ∧
        LaysOutputs types owner table call parts (position + 1) tail ∧ fragment = head ++ tail

def LaysReads (types : TypeOracle) (owner : Option Nat) (table : AccessTable)
    (kind : Nat → AccessKind) : List Pattern → Nat → Temp → Fragment → Prop
  | [], _, _, fragment => fragment = .empty
  | part :: parts, position, input, fragment =>
      ∃ step temp head tail, Reads table input (kind position) part.input step temp ∧
        Lays types owner table part temp head ∧
        LaysReads types owner table kind parts (position + 1) input tail ∧
        fragment = (head ++ tail).after [step]

def LaysMembers (types : TypeOracle) (owner : Option Nat) (table : AccessTable) :
    List (Member × Pattern) → Temp → Fragment → Prop
  | [], _, fragment => fragment = .empty
  | (member, pattern) :: members, input, fragment =>
      ∃ step temp head tail, Reads table input (.ofMember member) pattern.input step temp ∧
        Lays types owner table pattern temp head ∧
        LaysMembers types owner table members input tail ∧ fragment = (head ++ tail).after [step]

end

variable {types : TypeOracle} {owner : Option Nat} {input temp : Temp}
  {table final : AccessTable} {entry : TempEntry} {kind : AccessKind} {type : Ty}
  {step : Step} {steps : List Step}

theorem access_yields (input : Temp) (kind : AccessKind) :
    (modifyGet fun table => table.access input kind : Laying Access).Yields table True
      fun final made => final.access? made = some ⟨input, kind⟩ :=
  .modifyGet (AccessTable.access_extends rfl)

theorem output_yields {source : Access} {entry : AccessEntry} {position : Nat}
    (known : table.access? source = some entry) (inRange : position < entry.kind.outputCount)
    (typed : ∀ other, entry.kind = .cast other → type = other) :
    (modifyGet fun table => table.output source position type : Laying Temp).Yields table True
      fun final temp => final.temp? temp = some ⟨type, some source, position⟩ :=
  .modifyGet (AccessTable.output_extends known inRange typed rfl)

theorem read_yields (inRange : 0 < kind.outputCount)
    (typed : ∀ other, kind = .cast other → type = other) :
    (read input kind type).Yields table True fun final made =>
      Reads final input kind type made.1 made.2 := by
  unfold read
  refine (access_yields input kind).bind id fun made middle _ known _ => ?_
  refine (output_yields known inRange typed).bind id fun temp _ _ _ _ => ?_
  exact .pure trivial fun final _ found known => ⟨made, rfl, known, found⟩

theorem Reads.declared (reads : Reads table input kind type step temp) :
    ∃ declared, table.temp? temp = some declared := by
  obtain ⟨_, _, _, found⟩ := reads
  exact ⟨_, found⟩

theorem nullCheck_of_grows (grows : table.Grows final) (found : table.temp? input = some entry) :
    nullCheck types final input = nullCheck types table input := by
  unfold nullCheck
  rw [grows.typeOf found]

theorem convert_yields {strict : Bool} {target : Ty} (found : table.temp? input = some entry) :
    (convert types strict target input).Yields table True fun final made =>
      Converts types strict target final input made.1 made.2 := by
  unfold convert
  refine Laying.Yields.get.bind id fun _ middle grows isTable _ => ?_
  subst isTable
  have stays : ∀ final, middle.Grows final → final.typeOf input = table.typeOf input ∧
      nullCheck types final input = nullCheck types table input := fun final further =>
    ⟨(grows.trans further).typeOf found, nullCheck_of_grows (grows.trans further) found⟩
  have casts : (read input (.cast target) target).Yields middle True fun final made =>
      Reads final input (.cast target) target made.1 made.2 := read_yields Nat.one_pos (by simp)
  cases conversion : types.classify (table.typeOf input) target with
  | always =>
      refine .pure trivial fun final further _ => ?_
      unfold Converts
      rw [(stays final further).1, conversion, (stays final further).2]
      exact ⟨rfl, rfl⟩
  | tested =>
      refine casts.bind id fun cast last between _ _ => ?_
      refine .pure trivial fun final further reads _ => ?_
      obtain ⟨sameType, sameCheck⟩ := stays final (between.trans further)
      unfold Converts
      rw [sameType, conversion, sameCheck]
      exact ⟨cast.1, reads, rfl⟩
  | never =>
      refine casts.bind id fun cast last between _ _ => ?_
      refine .pure trivial fun final further reads _ => ?_
      unfold Converts
      rw [(stays final (between.trans further)).1, conversion]
      exact ⟨cast.1, reads, rfl⟩

theorem Converts.declared {strict : Bool} {target : Ty}
    (converts : Converts types strict target table input steps temp)
    (found : table.temp? input = some entry) : ∃ other, table.temp? temp = some other := by
  unfold Converts at converts
  split at converts
  · exact ⟨entry, by rw [converts.2]; exact found⟩
  · obtain ⟨_, reads, _⟩ := converts
    exact reads.declared
  · obtain ⟨_, reads, _⟩ := converts
    exact reads.declared

theorem enter_yields {target : Option Ty} (found : table.temp? input = some entry) :
    (enter types target input).Yields table True fun final made =>
      Enters types target final input made.1 made.2 := by
  cases target with
  | none =>
      refine Laying.Yields.get.bind id fun _ middle grows isTable _ => ?_
      subst isTable
      exact .pure trivial fun final further _ =>
        ⟨(nullCheck_of_grows (grows.trans further) found).symm, rfl⟩
  | some type => exact convert_yields found

theorem Enters.declared {target : Option Ty} (enters : Enters types target table input steps temp)
    (found : table.temp? input = some entry) : ∃ other, table.temp? temp = some other := by
  cases target with
  | none => exact ⟨entry, by rw [enters.2]; exact found⟩
  | some type => exact Converts.declared enters found

theorem outputCount_ofMember (member : Member) : (AccessKind.ofMember member).outputCount = 1 := by
  cases member <;> rfl

theorem ofMember_ne_cast (member : Member) (other : Ty) : AccessKind.ofMember member ≠ .cast other := by
  cases member <;> simp [AccessKind.ofMember]

theorem readMember_yields (member : Member) :
    (read input (.ofMember member) type).Yields table True fun final made =>
      Reads final input (.ofMember member) type made.1 made.2 :=
  read_yields (by rw [outputCount_ofMember]; exact Nat.one_pos)
    fun other isCast => absurd isCast (ofMember_ne_cast member other)

mutual

/-- A pattern is laid out if its parts can be counted, and as `Lays` says. -/
theorem flatten_yields (types : TypeOracle) (owner : Option Nat) :
    ∀ (pattern : Pattern) {input : Temp} {table : AccessTable} {declared : TempEntry},
      table.temp? input = some declared →
      (pattern.flatten types owner input).Yields table pattern.Countable fun final fragment =>
        Lays types owner final pattern input fragment
  | .discard _, input, table, declared, found => by
      unfold flatten
      exact .pure (by simp only [Countable]) fun _ _ => by simp only [Lays]
  | .var _ name, input, table, declared, found => by
      unfold flatten
      exact .pure (by simp only [Countable]) fun _ _ => by simp only [Lays]
  | .typed _ target name, input, table, declared, found => by
      unfold flatten
      refine (convert_yields found).bind (fun _ => trivial) fun made middle _ _ _ => ?_
      refine .pure (by simp only [Countable]) fun final _ converts => ?_
      simp only [Lays]
      exact ⟨made.1, made.2, converts, rfl⟩
  | .constant _ value type, input, table, declared, found => by
      unfold flatten
      split
      · rename_i isNull
        exact .pure (by simp only [Countable]) fun _ _ => by simp only [Lays, isNull, if_true]
      · rename_i notNull
        refine (convert_yields found).bind (fun _ => trivial) fun made middle _ _ _ => ?_
        refine .pure (by simp only [Countable]) fun final _ converts => ?_
        simp only [Lays, notNull]
        exact ⟨made.1, made.2, converts, rfl⟩
  | .compound _ target none members name, input, table, declared, found => by
      unfold flatten
      refine (enter_yields found).bind (fun _ => trivial) fun made middle grows enters _ => ?_
      obtain ⟨other, otherFound⟩ := enters.declared (grows.temp? found)
      refine (flattenMembers_yields types owner members otherFound).bind
        (fun countable => by simpa only [Countable] using countable) fun inner _ _ _ few => ?_
      refine .pure (by simpa only [Countable] using few) fun final _ inside enters => ?_
      simp only [Lays]
      exact ⟨made.1, made.2, inner, enters, inside, rfl⟩
  | .compound _ target (some (.method method, parts)) members name, input, table, declared,
      found => by
      unfold flatten
      simp only [Countable, Shape.capacity]
      refine (enter_yields found).bind (fun _ => trivial) fun made middle grows enters _ => ?_
      obtain ⟨other, otherFound⟩ := enters.declared (grows.temp? found)
      refine Laying.Yields.count.bind (fun countable => countable.1)
        fun arity counted toCounted isArity fewParts => ?_
      subst isArity
      refine (access_yields made.2 _).bind (fun _ => trivial) fun call behind toBehind known _ => ?_
      refine (flattenOutputs_yields types owner parts known (by simp [AccessKind.outputCount])
        (by simp) (Nat.zero_le _)).bind (fun countable => ⟨by omega, countable.2.1⟩)
        fun outer beyond toBeyond _ few => ?_
      have stillFound := ((toCounted.trans toBehind).trans toBeyond).temp? otherFound
      refine (flattenMembers_yields types owner members stillFound).bind
        (fun countable => countable.2.2) fun inner _ _ _ fewMembers => ?_
      refine .pure ⟨fewParts, few.2, fewMembers⟩ fun final _ inside outside known _ enters => ?_
      simp only [Lays]
      exact ⟨made.1, made.2, call, outer, inner, enters, known, outside, inside,
        Fragment.after_bind_append ..⟩
  | .compound _ target (some (.tuple, parts)) members name, input, table, declared, found => by
      unfold flatten
      simp only [Countable, Shape.capacity]
      refine (enter_yields found).bind (fun _ => trivial) fun made middle grows enters _ => ?_
      obtain ⟨other, otherFound⟩ := enters.declared (grows.temp? found)
      refine (flattenReads_yields types owner parts .component (fun _ => ⟨Nat.one_pos, by simp⟩)
        otherFound (Nat.zero_le _)).bind
        (fun countable => ⟨by omega, countable.2.1⟩)
        fun outer behind toBehind _ few => ?_
      refine (flattenMembers_yields types owner members (toBehind.temp? otherFound)).bind
        (fun countable => countable.2.2) fun inner _ _ _ fewMembers => ?_
      refine .pure ⟨by omega, few.2, fewMembers⟩ fun final _ inside outside enters => ?_
      simp only [Lays]
      exact ⟨made.1, made.2, outer, inner, enters, outside, inside, rfl⟩
  | .compound _ target (some (.indexed length lengthType, parts)) members name, input, table,
      declared, found => by
      unfold flatten
      simp only [Countable, Shape.capacity]
      refine (enter_yields found).bind (fun _ => trivial) fun made middle grows enters _ => ?_
      obtain ⟨other, otherFound⟩ := enters.declared (grows.temp? found)
      refine (readMember_yields length).bind (fun _ => trivial) fun measured behind toBehind _ _ => ?_
      refine Laying.Yields.lengthOf.bind (fun countable => by omega)
        fun expected beyond toBeyond isLength _ => ?_
      subst isLength
      have stillFound := (toBehind.trans toBeyond).temp? otherFound
      refine (flattenReads_yields types owner parts .element (fun _ => ⟨Nat.one_pos, by simp⟩)
        stillFound (Nat.zero_le _)).bind
        (fun countable => ⟨by omega, countable.2.1⟩)
        fun outer last toLast _ few => ?_
      refine (flattenMembers_yields types owner members (toLast.temp? stillFound)).bind
        (fun countable => countable.2.2) fun inner _ _ _ fewMembers => ?_
      refine .pure ⟨by omega, few.2, fewMembers⟩
        fun final _ inside outside _ measures enters => ?_
      simp only [Lays]
      exact ⟨made.1, made.2, measured.1, measured.2, outer, inner, enters, measures, outside, inside,
        Fragment.after_bind_append ..⟩

theorem flattenOutputs_yields (types : TypeOracle) (owner : Option Nat) :
    ∀ (parts : List Pattern) {call : Access} {entry : AccessEntry} {position : Nat}
      {table : AccessTable}, table.access? call = some entry →
      position + parts.length ≤ entry.kind.outputCount → (∀ other, entry.kind ≠ .cast other) →
      position ≤ 0x100000000 →
      (flattenOutputs types owner call parts position).Yields table
        (position + parts.length ≤ 0x100000000 ∧ PartsCountable parts) fun final fragment =>
          LaysOutputs types owner final call parts position fragment
  | [], call, entry, position, table, known, inRange, notCast, few => by
      unfold flattenOutputs
      exact .pure ⟨few, by simp only [PartsCountable]⟩ fun _ _ => by simp only [LaysOutputs]
  | part :: parts, call, entry, position, table, known, inRange, notCast, few => by
      unfold flattenOutputs
      simp only [PartsCountable]
      rw [List.length_cons] at inRange ⊢
      refine Laying.Yields.count.bind (fun countable => by omega)
        fun number counted toCounted isNumber inBounds => ?_
      subst isNumber
      refine (output_yields (toCounted.access? known) (by omega)
        (fun other isCast => absurd isCast (notCast other))).bind (fun _ => trivial)
        fun temp middle toMiddle found _ => ?_
      refine (flatten_yields types owner part found).bind (fun countable => countable.2.1)
        fun head behind toBehind _ fewHead => ?_
      have stillKnown := ((toCounted.trans toMiddle).trans toBehind).access? known
      refine (flattenOutputs_yields types owner parts stillKnown (by omega) notCast (by omega)).bind
        (fun countable => ⟨by omega, countable.2.2⟩) fun tail _ _ _ fewTail => ?_
      refine .pure ⟨by omega, fewHead, fewTail.2⟩ fun final _ later first found _ => ?_
      simp only [LaysOutputs]
      exact ⟨temp, head, tail, found, first, later, rfl⟩

theorem flattenReads_yields (types : TypeOracle) (owner : Option Nat) :
    ∀ (parts : List Pattern) (kind : Nat → AccessKind) {position : Nat} {input : Temp}
      {table : AccessTable} {declared : TempEntry},
      (∀ position, 0 < (kind position).outputCount ∧ ∀ other, kind position ≠ .cast other) →
      table.temp? input = some declared → position ≤ 0x100000000 →
      (flattenReads types owner kind parts position input).Yields table
        (position + parts.length ≤ 0x100000000 ∧ PartsCountable parts) fun final fragment =>
          LaysReads types owner final kind parts position input fragment
  | [], kind, position, input, table, declared, single, found, few => by
      unfold flattenReads
      exact .pure ⟨few, by simp only [PartsCountable]⟩ fun _ _ => by simp only [LaysReads]
  | part :: parts, kind, position, input, table, declared, single, found, few => by
      unfold flattenReads
      simp only [PartsCountable]
      rw [List.length_cons]
      refine Laying.Yields.count.bind (fun countable => by omega)
        fun number counted toCounted isNumber inBounds => ?_
      subst isNumber
      obtain ⟨inRange, notCast⟩ := single position
      refine (read_yields inRange fun other isCast => absurd isCast (notCast other)).bind
        (fun _ => trivial) fun made middle toMiddle reads _ => ?_
      obtain ⟨_, tempFound⟩ := reads.declared
      refine (flatten_yields types owner part tempFound).bind (fun countable => countable.2.1)
        fun head behind toBehind _ fewHead => ?_
      have stillFound := ((toCounted.trans toMiddle).trans toBehind).temp? found
      refine (flattenReads_yields types owner parts kind single stillFound (by omega)).bind
        (fun countable => ⟨by omega, countable.2.2⟩) fun tail _ _ _ fewTail => ?_
      refine .pure ⟨by omega, fewHead, fewTail.2⟩ fun final _ later first reads _ => ?_
      simp only [LaysReads]
      exact ⟨made.1, made.2, head, tail, reads, first, later, rfl⟩

theorem flattenMembers_yields (types : TypeOracle) (owner : Option Nat) :
    ∀ (members : List (Member × Pattern)) {input : Temp} {table : AccessTable}
      {declared : TempEntry}, table.temp? input = some declared →
      (flattenMembers types owner members input).Yields table (MembersCountable members)
        fun final fragment => LaysMembers types owner final members input fragment
  | [], input, table, declared, found => by
      unfold flattenMembers
      exact .pure (by simp only [MembersCountable]) fun _ _ => by simp only [LaysMembers]
  | (member, pattern) :: members, input, table, declared, found => by
      unfold flattenMembers
      simp only [MembersCountable]
      refine (readMember_yields member).bind (fun _ => trivial) fun made middle toMiddle reads _ => ?_
      obtain ⟨_, tempFound⟩ := reads.declared
      refine (flatten_yields types owner pattern tempFound).bind (fun countable => countable.1)
        fun head behind toBehind _ fewHead => ?_
      refine (flattenMembers_yields types owner members
        ((toMiddle.trans toBehind).temp? found)).bind
        (fun countable => countable.2) fun tail _ _ _ fewTail => ?_
      refine .pure ⟨fewHead, fewTail⟩ fun final _ later first reads => ?_
      simp only [LaysMembers]
      exact ⟨made.1, made.2, head, tail, reads, first, later, rfl⟩

end

theorem flatten_extends {pattern : Pattern} {fragment : Fragment} {after : AccessTable}
    (found : table.temp? input = some entry)
    (laid : (pattern.flatten types owner input).on table = (.ok fragment, after)) :
    table.Extends after fun final => Lays types owner final pattern input fragment := by
  have extended := (flatten_yields types owner pattern found).extended
  rw [laid] at extended
  exact extended.imp fun _ _ lays => lays fragment rfl

theorem flatten_succeeds_iff (types : TypeOracle) (owner : Option Nat) {pattern : Pattern}
    (found : table.temp? input = some entry) :
    (∃ fragment, ((pattern.flatten types owner input).on table).1 = .ok fragment) ↔
      pattern.Countable :=
  (flatten_yields types owner pattern found).succeeds

end Pattern

end MatchCompiler
