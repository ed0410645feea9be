import MatchCompiler.Proofs.Pattern.Matching

/-!
# Laid out patterns match

The fragment of a pattern carries exactly what matching the pattern yields.
-/

set_option autoImplicit false

namespace MatchCompiler

namespace Fragment.Carries

variable {types : TypeOracle} {typing : Typing} {table : AccessTable} {input value : Value}
  {front back : Fragment} {slots middle : Slots Value} {steps : List Step} {temp : Temp}
  {first second : Option (List (Symbol × Value))}

/-- What is in front of the parts of a pattern, then the parts, then its own
variable. -/
theorem compound (passes : Step.Passes types typing table input steps slots middle)
    (found : middle.get? temp = some value)
    (outer : front.Carries types typing table input middle first)
    (inner : ∀ after, first.isSome → after.Sound table input → middle.Below after →
      back.Carries types typing table input after second) (name : Option Symbol) :
    (((front ++ back).bind name temp).after steps).Carries types typing table input slots
      (do let outside ← first; let inside ← second
          return outside ++ inside ++ Pattern.named name value) := by
  have carries := ((outer.append inner).bind found name).after passes
  cases first with
  | none => exact carries
  | some outside => cases second <;> exact carries

end Fragment.Carries

namespace Pattern

variable {types : TypeOracle} {typing : Typing} {table : AccessTable} {input value : Value}
  {slots : Slots Value} {owner : Option Nat} {subject temp : Temp} {steps : List Step}

/-! ## Null tests, reads and conversions -/

theorem passes_nullCheck (slotsSound : slots.Sound table input)
    (found : slots.get? subject = some value) (notNull : value.isNull = false) :
    Step.Passes types typing table input (nullCheck types table subject) slots slots := by
  unfold nullCheck
  split
  · exact Step.passes_test slotsSound found (fun _ _ isEquals => by cases isEquals)
      (by simp [Predicate.holds, notNull])
  · exact Step.passes_nil slotsSound

theorem stops_nullCheck (found : slots.get? subject = some value) (isNull : value.isNull = true)
    (canBeNull : types.canBeNull (table.typeOf subject) = true) :
    Step.Stops types typing table (nullCheck types table subject) slots := by
  unfold nullCheck
  rw [if_pos canBeNull]
  exact Step.stops_test found (fun _ _ isEquals => by cases isEquals)
    (by simp [Predicate.holds, isNull])

theorem Reads.passes (lawful : table.Lawful) (slotsSound : slots.Sound table input)
    {kind : AccessKind} {type : Ty} {step : Step} {result : Value}
    (reads : Reads table subject kind type step temp) (found : slots.get? subject = some value)
    (yielded : ∀ made : Access, made.outputs kind value = .ok [result]) :
    ∃ after, Step.Passes types typing table input [step] slots after ∧
      after.get? temp = some result := by
  obtain ⟨made, rfl, known, tempFound⟩ := reads
  obtain ⟨after, passes, filled⟩ :=
    Step.passes_access lawful slotsSound known found (yielded made)
  obtain ⟨other, isResult, isFilled⟩ := filled temp _ tempFound rfl
  obtain rfl : result = other := by simpa using isResult
  exact ⟨after, passes, isFilled⟩

theorem outputs_cast (made : Access) {type : Ty} (notNull : value.isNull = false) :
    made.outputs (.cast type) value = .ok [value] := by
  simp [Access.outputs, notNull]

theorem outputs_member (made : Access) {member : Member} {content : Value}
    (found : value.member? (memberName member) = some content) :
    made.outputs (.ofMember member) value = .ok [content] := by
  have notNull : value.isNull = false := by
    cases value <;> simp_all [Value.member?, Value.isNull]
  cases member <;> simp_all [Access.outputs, AccessKind.ofMember, memberName]

theorem outputs_deconstruct (made : Access) (method : Symbol) (owner : Option Nat) {count : Nat}
    {components : List Value} (offered : value.components? = some components)
    (sized : components.length = count) :
    made.outputs (.deconstruct method count owner) value = .ok components := by
  have notNull : value.isNull = false := by
    cases value <;> simp_all [Value.components?, Value.isNull]
  simp [Access.outputs, notNull, offered, sized]

theorem outputs_component (made : Access) {elements : List Value} {position : Nat}
    {element : Value} (offered : value.tupleElements? = some elements)
    (found : elements[position]? = some element) :
    made.outputs (.component position) value = .ok [element] := by
  have notNull : value.isNull = false := by
    cases value <;> simp_all [Value.tupleElements?, Value.isNull]
  simp [Access.outputs, Access.elementAt, notNull, offered, found]

theorem outputs_element (made : Access) {elements : List Value} {position : Nat}
    {element : Value} (offered : value.elements? = some elements)
    (found : elements[position]? = some element) :
    made.outputs (.element position) value = .ok [element] := by
  have notNull : value.isNull = false := by
    cases value <;> simp_all [Value.elements?, Value.isNull]
  simp [Access.outputs, Access.elementAt, notNull, offered, found]

variable {strict : Bool} {target : Ty}

theorem Converts.passes (lawful : table.Lawful) (sound : types.SoundFor typing)
    (slotsSound : slots.Sound table input)
    (converts : Converts types strict target table subject steps temp)
    (found : slots.get? subject = some value)
    (conforms : typing.Conforms types (table.typeOf subject) value)
    (isInstance : typing.isInstance value target = true) :
    ∃ after, Step.Passes types typing table input steps slots after ∧
      after.get? temp = some value ∧
      table.typeOf temp = comparedType types (table.typeOf subject) target := by
  have notNull := Typing.isNull_of_isInstance isInstance
  unfold Converts at converts
  unfold comparedType
  split at converts
  · rename_i always
    obtain ⟨rfl, rfl⟩ := converts
    refine ⟨slots, ?_, found, by rw [if_pos always]⟩
    split
    · exact passes_nullCheck slotsSound found notNull
    · exact Step.passes_nil slotsSound
  · rename_i tested
    obtain ⟨cast, reads, rfl⟩ := converts
    obtain ⟨after, passes, filled⟩ :=
      reads.passes lawful slotsSound found fun made => outputs_cast made notNull
    have asked : Step.Passes types typing table input [.test ⟨subject, .ofType target⟩] slots slots :=
      Step.passes_test slotsSound found (fun _ _ isEquals => by cases isEquals) isInstance
    refine ⟨after, (passes_nullCheck slotsSound found notNull).append (asked.append passes),
      filled, ?_⟩
    obtain ⟨_, _, _, tempFound⟩ := reads
    rw [if_neg (by simp [tested]), AccessTable.typeOf_of_temp? tempFound]
  · rename_i never
    have apart := sound.never _ _ value never (conforms.notNull notNull)
    rw [isInstance] at apart
    contradiction

theorem Converts.stops_or_null (sound : types.SoundFor typing)
    (converts : Converts types strict target table subject steps temp)
    (found : slots.get? subject = some value)
    (conforms : typing.Conforms types (table.typeOf subject) value)
    (notInstance : typing.isInstance value target = false) :
    Step.Stops types typing table steps slots ∨
      strict = false ∧ steps = [] ∧ temp = subject ∧ value.isNull = true := by
  unfold Converts at converts
  split at converts
  · rename_i always
    obtain ⟨rfl, rfl⟩ := converts
    have isNull : value.isNull = true := by
      cases null : value.isNull with
      | true => rfl
      | false =>
          have isInstance := sound.always _ _ value always (conforms.notNull null)
          rw [notInstance] at isInstance
          contradiction
    cases strict with
    | true => exact Or.inl (stops_nullCheck found isNull (conforms.null isNull))
    | false => exact Or.inr ⟨rfl, rfl, rfl, isNull⟩
  · obtain ⟨cast, _, rfl⟩ := converts
    left
    have refused : Step.Stops types typing table [.test ⟨subject, .ofType target⟩] slots :=
      Step.stops_test found (fun _ _ isEquals => by cases isEquals) notInstance
    unfold nullCheck
    split
    · cases null : value.isNull with
      | true =>
          exact (Step.stops_test found (fun _ _ isEquals => by cases isEquals)
            (by simp [Predicate.holds, null])).append
      | false =>
          -- The null test leaves the slots as they are.
          refine ⟨?_, ?_⟩
          · exact (Step.runAll_test found).trans
              ((if_pos (by simp [Predicate.holds, null])).trans (refused.append).runs)
          · refine Step.Proper.append (Step.proper_test found fun _ _ isEquals => by cases isEquals) ?_
            intro middle ran
            obtain rfl : slots = middle := by
              rw [Step.runAll_test found, if_pos (by simp [Predicate.holds, null])] at ran
              simpa [Step.runAll] using ran
            exact (refused.append).proper
    · exact refused.append
  · obtain ⟨cast, _, rfl⟩ := converts
    have refused : Step.Stops types typing table [.test ⟨subject, .never⟩] slots :=
      Step.stops_test found (fun _ _ isEquals => by cases isEquals) rfl
    exact Or.inl refused.append

theorem Enters.passes {declared : Option Ty} (lawful : table.Lawful)
    (sound : types.SoundFor typing) (slotsSound : slots.Sound table input)
    (enters : Enters types declared table subject steps temp)
    (found : slots.get? subject = some value)
    (conforms : typing.Conforms types (table.typeOf subject) value)
    (admitted : admits typing declared value = true) :
    ∃ after, Step.Passes types typing table input steps slots after ∧
      after.get? temp = some value := by
  cases declared with
  | none =>
      obtain ⟨rfl, rfl⟩ := enters
      have notNull : value.isNull = false := by simpa [admits] using admitted
      exact ⟨slots, passes_nullCheck slotsSound found notNull, found⟩
  | some type =>
      obtain ⟨after, passes, filled, _⟩ :=
        Converts.passes lawful sound slotsSound enters found conforms admitted
      exact ⟨after, passes, filled⟩

theorem Enters.stops {declared : Option Ty} (sound : types.SoundFor typing)
    (enters : Enters types declared table subject steps temp)
    (found : slots.get? subject = some value)
    (conforms : typing.Conforms types (table.typeOf subject) value)
    (refused : admits typing declared value = false) :
    Step.Stops types typing table steps slots := by
  cases declared with
  | none =>
      obtain ⟨rfl, rfl⟩ := enters
      have isNull : value.isNull = true := by simpa [admits] using refused
      exact stops_nullCheck found isNull (conforms.null isNull)
  | some type =>
      rcases Converts.stops_or_null sound enters found conforms refused with stops | ⟨isLax, _⟩
      · exact stops
      · contradiction

/-- Where a value is not admitted, what comes behind the entry does not matter. -/
theorem Enters.carries {declared : Option Ty} {fragment : Fragment}
    {result : Option (List (Symbol × Value))} (lawful : table.Lawful)
    (sound : types.SoundFor typing) (slotsSound : slots.Sound table input)
    (enters : Enters types declared table subject steps temp)
    (found : slots.get? subject = some value)
    (conforms : typing.Conforms types (table.typeOf subject) value)
    (inside : admits typing declared value = true → ∀ middle,
      Step.Passes types typing table input steps slots middle → middle.get? temp = some value →
      (fragment.after steps).Carries types typing table input slots result) :
    (fragment.after steps).Carries types typing table input slots
      (if admits typing declared value then result else none) := by
  cases admitted : admits typing declared value with
  | false => exact .stop (enters.stops sound found conforms admitted)
  | true =>
      obtain ⟨middle, passes, filled⟩ :=
        enters.passes lawful sound slotsSound found conforms admitted
      exact inside admitted middle passes filled

/-! ## Patterns without parts -/

theorem Converts.carries {name : Option Symbol} (lawful : table.Lawful)
    (sound : types.SoundFor typing) (slotsSound : slots.Sound table input)
    (converts : Converts types true target table subject steps temp)
    (found : slots.get? subject = some value)
    (conforms : typing.Conforms types (table.typeOf subject) value) :
    ((Fragment.empty.bind name temp).after steps).Carries types typing table input slots
      (if typing.isInstance value target then some (named name value) else none) := by
  cases isInstance : typing.isInstance value target with
  | true =>
      obtain ⟨after, passes, filled, _⟩ :=
        converts.passes lawful sound slotsSound found conforms isInstance
      exact .after passes ((Fragment.Carries.empty passes.sound).bind filled name)
  | false =>
      rcases converts.stops_or_null sound found conforms isInstance with stops | ⟨isLax, _⟩
      · exact .stop stops
      · contradiction

theorem carries_null (slotsSound : slots.Sound table input)
    (found : slots.get? subject = some value) :
    Fragment.Carries types typing table input ⟨[.test ⟨subject, .isNull⟩], []⟩ slots
      (if value.isNull then some [] else none) := by
  cases isNull : value.isNull with
  | true =>
      exact .passes (Step.passes_test slotsSound found
        (fun _ _ isEquals => by cases isEquals) isNull) rfl
  | false => exact .fails (Step.stops_test found (fun _ _ isEquals => by cases isEquals) isNull)

theorem Converts.carries_equals {wanted : Const} (lawful : table.Lawful)
    (sound : types.SoundFor typing) (slotsSound : slots.Sound table input)
    (converts : Converts types false target table subject steps temp)
    (found : slots.get? subject = some value)
    (conforms : typing.Conforms types (table.typeOf subject) value)
    (wantsSome : ¬wanted.isNull = true)
    (boolean : ∀ b, wanted = .bool b →
      types.canBeNull (comparedType types (table.typeOf subject) target) = false →
      typing.isInstance value target = true → ∃ c, value = .bool c) :
    Fragment.Carries types typing table input ⟨steps ++ [.test ⟨temp, .equals wanted⟩], []⟩ slots
      (if typing.isInstance value target && value.equals wanted then some [] else none) := by
  cases isInstance : typing.isInstance value target with
  | true =>
      obtain ⟨after, passes, filled, compared⟩ :=
        converts.passes lawful sound slotsSound found conforms isInstance
      have asked : Test.Suits types table ⟨temp, .equals wanted⟩ value := by
        intro nonNullable b isBool
        rw [compared] at nonNullable
        exact boolean b (Predicate.equals.inj isBool) nonNullable isInstance
      cases equal : value.equals wanted with
      | true =>
          exact .passes (passes.append (Step.passes_test passes.sound filled asked equal)) rfl
      | false => exact .fails (passes.stops (Step.stops_test filled asked equal))
  | false =>
      rcases converts.stops_or_null sound found conforms isInstance with
        stops | ⟨_, rfl, rfl, isNull⟩
      · exact .fails stops.append
      · -- Null is compared with a constant that is not null.
        refine .fails (Step.stops_test found ?_ ?_)
        · intro nonNullable
          rw [conforms.null isNull] at nonNullable
          contradiction
        · cases value <;> cases wanted <;>
            simp_all [Predicate.holds, Value.equals, Value.isNull, Const.isNull]

/-! ## Patterns -/

mutual

/-- On a value that is well typed for it, a pattern that is laid out carries its
own match. -/
theorem carries_of_lays (lawful : table.Lawful) (sound : types.SoundFor typing) (input : Value) :
    ∀ (pattern : Pattern) {subject : Temp} {fragment : Fragment} {slots : Slots Value}
      {value : Value}, Lays types owner table pattern subject fragment →
      slots.Sound table input → slots.get? subject = some value →
      table.typeOf subject = pattern.input → WellTyped types typing pattern value →
      fragment.Carries types typing table input slots (match? typing pattern value)
  | .discard _, subject, fragment, slots, value, lays, slotsSound, found, sameType, wellTyped => by
      simp only [Lays] at lays
      rw [lays]
      exact .empty slotsSound
  | .var _ name, subject, fragment, slots, value, lays, slotsSound, found, sameType, wellTyped => by
      simp only [Lays] at lays
      rw [lays]
      exact (Fragment.Carries.empty slotsSound).bind found (some name)
  | .typed examined target name, subject, fragment, slots, value, lays, slotsSound, found, sameType,
      wellTyped => by
      simp only [Lays] at lays
      simp only [WellTyped] at wellTyped
      obtain ⟨steps, temp, converts, rfl⟩ := lays
      have sameType : table.typeOf subject = examined := sameType
      rw [← sameType] at wellTyped
      simp only [match?]
      exact converts.carries lawful sound slotsSound found wellTyped
  | .constant examined wanted type, subject, fragment, slots, value, lays, slotsSound, found, sameType,
      wellTyped => by
      simp only [Lays] at lays
      simp only [WellTyped] at wellTyped
      have sameType : table.typeOf subject = examined := sameType
      rw [← sameType] at wellTyped
      obtain ⟨conforms, boolean⟩ := wellTyped
      simp only [match?]
      split at lays
      · rename_i wantsNull
        rw [if_pos wantsNull, lays]
        exact carries_null slotsSound found
      · rename_i wantsSome
        rw [if_neg wantsSome]
        obtain ⟨steps, temp, converts, rfl⟩ := lays
        exact converts.carries_equals lawful sound slotsSound found conforms wantsSome boolean
  | .compound examined declared none members name, subject, fragment, slots, value, lays, slotsSound,
      found, sameType, wellTyped => by
      simp only [Lays] at lays
      simp only [WellTyped] at wellTyped
      have sameType : table.typeOf subject = examined := sameType
      rw [← sameType] at wellTyped
      obtain ⟨steps, temp, inner, enters, inside, rfl⟩ := lays
      obtain ⟨conforms, membersTyped⟩ := wellTyped
      simp only [match?]
      apply enters.carries lawful sound slotsSound found conforms
      intro admitted middle passes filled
      have carries := ((carries_of_laysMembers lawful sound input members inside passes.sound
        filled (membersTyped admitted)).bind filled name).after passes
      rw [Option.map_eq_bind] at carries
      exact carries
  | .compound examined declared (some (.method method, parts)) members name, subject, fragment, slots,
      value, lays, slotsSound, found, sameType, wellTyped => by
      simp only [Lays] at lays
      simp only [WellTyped] at wellTyped
      have sameType : table.typeOf subject = examined := sameType
      rw [← sameType] at wellTyped
      obtain ⟨steps, temp, call, outer, inner, enters, known, outside, inside, rfl⟩ := lays
      obtain ⟨conforms, partsTyped⟩ := wellTyped
      simp only [match?]
      apply enters.carries lawful sound slotsSound found conforms
      intro admitted middle passes filled
      obtain ⟨⟨components, offered, sized⟩, partsTyped⟩ := partsTyped admitted
      have values : positionalValues (.method method) parts.length value = some components := by
        simp [positionalValues, offered, sized]
      obtain ⟨outsideTyped, membersTyped⟩ := partsTyped components values
      have yielded := outputs_deconstruct call method owner offered sized
      obtain ⟨called, calls, outputs⟩ :=
        Step.passes_access lawful passes.sound known filled yielded
      rw [values]
      refine .compound passes filled (.after calls (carries_of_laysOutputs lawful sound input
        parts outside calls.sound outputs outsideTyped)) ?_ name
      intro after matched afterSound below
      exact carries_of_laysMembers lawful sound input members inside afterSound
        (below _ _ filled) (membersTyped matched)
  | .compound examined declared (some (.tuple, parts)) members name, subject, fragment, slots, value,
      lays, slotsSound, found, sameType, wellTyped => by
      simp only [Lays] at lays
      simp only [WellTyped] at wellTyped
      have sameType : table.typeOf subject = examined := sameType
      rw [← sameType] at wellTyped
      obtain ⟨steps, temp, outer, inner, enters, outside, inside, rfl⟩ := lays
      obtain ⟨conforms, partsTyped⟩ := wellTyped
      simp only [match?]
      apply enters.carries lawful sound slotsSound found conforms
      intro admitted middle passes filled
      obtain ⟨⟨elements, offered⟩, partsTyped⟩ := partsTyped admitted
      obtain ⟨outsideTyped, membersTyped⟩ := partsTyped elements offered
      have values : positionalValues .tuple parts.length value = some elements := offered
      rw [values]
      refine .compound passes filled (carries_of_laysReads lawful sound input parts elements
        outside passes.sound filled
        (fun made _ _ element => outputs_component made offered element) outsideTyped) ?_ name
      intro after matched afterSound below
      exact carries_of_laysMembers lawful sound input members inside afterSound
        (below _ _ filled) (membersTyped matched)
  | .compound examined declared (some (.indexed length lengthType, parts)) members name, subject,
      fragment, slots, value, lays, slotsSound, found, sameType, wellTyped => by
      simp only [Lays] at lays
      simp only [WellTyped] at wellTyped
      have sameType : table.typeOf subject = examined := sameType
      rw [← sameType] at wellTyped
      obtain ⟨steps, temp, readLength, count, outer, inner, enters, measures, outside, inside, rfl⟩ :=
        lays
      obtain ⟨conforms, partsTyped⟩ := wellTyped
      simp only [match?]
      apply enters.carries lawful sound slotsSound found conforms
      intro admitted middle passes filled
      obtain ⟨⟨measured, lengthFound, offered⟩, partsTyped⟩ := partsTyped admitted
      obtain ⟨counted, counts, countFilled⟩ := measures.passes lawful passes.sound filled
        fun made => outputs_member made lengthFound
      have asked : Test.Suits types table ⟨count, .equals (.int parts.length)⟩ measured :=
        fun _ _ isBool => by cases isBool
      cases equal : measured.equals (.int parts.length) with
      | false =>
          have values : positionalValues (.indexed length lengthType) parts.length value = none := by
            simp [positionalValues, lengthFound, equal]
          rw [values]
          exact .fails (passes.stops
            ((counts.stops (Step.stops_test countFilled asked equal)).append.append))
      | true =>
          obtain ⟨elements, offered⟩ := offered equal
          have values : positionalValues (.indexed length lengthType) parts.length value =
              some elements := by
            simp [positionalValues, lengthFound, equal, offered]
          obtain ⟨outsideTyped, membersTyped⟩ := partsTyped elements values
          rw [values]
          have tested := counts.append (Step.passes_test counts.sound countFilled asked equal)
          refine .compound passes filled (.after tested (carries_of_laysReads lawful sound input
            parts elements outside tested.sound (tested.below _ _ filled)
            (fun made _ _ element => outputs_element made offered element) outsideTyped)) ?_ name
          intro after matched afterSound below
          exact carries_of_laysMembers lawful sound input members inside afterSound
            (below _ _ filled) (membersTyped matched)

theorem carries_of_laysOutputs (lawful : table.Lawful) (sound : types.SoundFor typing)
    (input : Value) :
    ∀ (parts : List Pattern) {call : Access} {position : Nat} {fragment : Fragment}
      {slots : Slots Value} {outputs : List Value},
      LaysOutputs types owner table call parts position fragment → slots.Sound table input →
      (∀ temp declared, table.temp? temp = some declared → declared.source = some call →
        ∃ result, outputs[declared.output]? = some result ∧ slots.get? temp = some result) →
      PartsWellTyped types typing parts (outputs.drop position) →
      fragment.Carries types typing table input slots
        (matchParts? typing parts (outputs.drop position))
  | [], call, position, fragment, slots, outputs, lays, slotsSound, filled, wellTyped => by
      simp only [LaysOutputs] at lays
      rw [lays]
      simp only [matchParts?]
      exact .empty slotsSound
  | part :: parts, call, position, fragment, slots, outputs, lays, slotsSound, filled,
      wellTyped => by
      simp only [LaysOutputs] at lays
      obtain ⟨temp, head, tail, tempFound, first, later, rfl⟩ := lays
      obtain ⟨result, isResult, isFilled⟩ := filled temp _ tempFound rfl
      dsimp only at isResult
      have dropped : outputs.drop position = result :: outputs.drop (position + 1) := by
        rw [List.drop_eq_getElem?_toList_append, isResult]
        rfl
      rw [dropped] at wellTyped ⊢
      simp only [PartsWellTyped] at wellTyped
      simp only [matchParts?]
      refine .append (carries_of_lays lawful sound input part first slotsSound isFilled
        (AccessTable.typeOf_of_temp? tempFound) wellTyped.1) ?_
      intro after matched afterSound below
      refine carries_of_laysOutputs lawful sound input parts later afterSound ?_
        (wellTyped.2 matched)
      intro other declared otherFound filledBy
      obtain ⟨content, isContent, otherFilled⟩ := filled other declared otherFound filledBy
      exact ⟨content, isContent, below _ _ otherFilled⟩

theorem carries_of_laysReads (lawful : table.Lawful) (sound : types.SoundFor typing)
    (input : Value) :
    ∀ (parts : List Pattern) (elements : List Value) {kind : Nat → AccessKind} {position : Nat}
      {subject : Temp} {fragment : Fragment} {slots : Slots Value} {value : Value},
      LaysReads types owner table kind parts position subject fragment →
      slots.Sound table input → slots.get? subject = some value →
      (∀ (made : Access) position element, elements[position]? = some element →
        made.outputs (kind position) value = .ok [element]) →
      PartsWellTyped types typing parts (elements.drop position) →
      fragment.Carries types typing table input slots
        (matchParts? typing parts (elements.drop position))
  | [], elements, kind, position, subject, fragment, slots, value, lays, slotsSound, found,
      yielded, wellTyped => by
      simp only [LaysReads] at lays
      rw [lays]
      simp only [matchParts?]
      exact .empty slotsSound
  | part :: parts, elements, kind, position, subject, fragment, slots, value, lays, slotsSound,
      found, yielded, wellTyped => by
      simp only [LaysReads] at lays
      obtain ⟨step, temp, head, tail, reads, first, later, rfl⟩ := lays
      cases isElement : elements[position]? with
      | none =>
          rw [List.drop_eq_nil_of_le (List.getElem?_eq_none_iff.mp isElement)] at wellTyped
          simp only [PartsWellTyped] at wellTyped
      | some element =>
          have dropped : elements.drop position = element :: elements.drop (position + 1) := by
            rw [List.drop_eq_getElem?_toList_append, isElement]
            rfl
          rw [dropped] at wellTyped ⊢
          simp only [PartsWellTyped] at wellTyped
          simp only [matchParts?]
          obtain ⟨middle, passes, filled⟩ := reads.passes lawful slotsSound found
            fun made => yielded made position element isElement
          obtain ⟨_, _, _, tempFound⟩ := reads
          refine .after passes (.append (carries_of_lays lawful sound input part first passes.sound
            filled (AccessTable.typeOf_of_temp? tempFound) wellTyped.1) ?_)
          intro after matched afterSound below
          exact carries_of_laysReads lawful sound input parts elements later afterSound
            (below _ _ (passes.below _ _ found)) yielded (wellTyped.2 matched)

theorem carries_of_laysMembers (lawful : table.Lawful) (sound : types.SoundFor typing)
    (input : Value) :
    ∀ (members : List (Member × Pattern)) {subject : Temp} {fragment : Fragment}
      {slots : Slots Value} {value : Value},
      LaysMembers types owner table members subject fragment → slots.Sound table input →
      slots.get? subject = some value → MembersWellTyped types typing members value →
      fragment.Carries types typing table input slots (matchMembers? typing members value)
  | [], subject, fragment, slots, value, lays, slotsSound, found, wellTyped => by
      simp only [LaysMembers] at lays
      rw [lays]
      simp only [matchMembers?]
      exact .empty slotsSound
  | (member, pattern) :: members, subject, fragment, slots, value, lays, slotsSound, found,
      wellTyped => by
      simp only [LaysMembers] at lays
      simp only [MembersWellTyped] at wellTyped
      obtain ⟨step, temp, head, tail, reads, first, later, rfl⟩ := lays
      obtain ⟨content, isContent, contentTyped, restTyped⟩ := wellTyped
      simp only [matchMembers?, isContent]
      obtain ⟨middle, passes, filled⟩ := reads.passes lawful slotsSound found
        fun made => outputs_member made isContent
      obtain ⟨_, _, _, tempFound⟩ := reads
      refine .after passes (.append (carries_of_lays lawful sound input pattern first passes.sound
        filled (AccessTable.typeOf_of_temp? tempFound) contentTyped) ?_)
      intro after matched afterSound below
      exact carries_of_laysMembers lawful sound input members later afterSound
        (below _ _ (passes.below _ _ found)) (restTyped matched)

end

end Pattern

end MatchCompiler
