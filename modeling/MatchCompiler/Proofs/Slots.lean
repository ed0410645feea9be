import MatchCompiler.Progress
import MatchCompiler.Proofs.AccessTable
import MatchCompiler.Proofs.Success

/-!
# What slots hold

A temp is filled by one access only, so whatever order accesses are made in, a
filled slot holds the one value that the chain of accesses to its temp yields.
Slots that are filled in this way can differ only in how many of them are filled.
-/

set_option autoImplicit false

namespace MatchCompiler

namespace AccessTable

/-- The value that a temp gets, from the match input on. -/
inductive Yields (table : AccessTable) (input : Value) : Temp → Value → Prop
  | root : Yields table input .root input
  | output {temp : Temp} {declared : TempEntry} {source : Access} {entry : AccessEntry}
      {value result : Value} {outputs : List Value}
      (found : table.temp? temp = some declared) (filledBy : declared.source = some source)
      (known : table.access? source = some entry)
      (behind : Yields table input entry.input value)
      (made : source.outputs entry.kind value = .ok outputs)
      (picked : outputs[declared.output]? = some result) :
      Yields table input temp result

theorem Yields.unique {table : AccessTable} (rooted : table.Rooted) {input : Value} {temp : Temp}
    {first : Value} (one : table.Yields input temp first) :
    ∀ {second : Value}, table.Yields input temp second → first = second := by
  obtain ⟨rootEntry, rootFound, noSource⟩ := rooted
  induction one with
  | root =>
      intro second other
      cases other with
      | root => rfl
      | output found filledBy _ _ _ _ =>
          rw [rootFound] at found
          obtain rfl := Option.some.inj found
          rw [noSource] at filledBy
          contradiction
  | output found filledBy known _ made picked ih =>
      intro second other
      cases other with
      | root =>
          rw [rootFound] at found
          obtain rfl := Option.some.inj found
          rw [noSource] at filledBy
          contradiction
      | output found' filledBy' known' behind' made' picked' =>
          obtain rfl := Option.some.inj (found.symm.trans found')
          obtain rfl := Option.some.inj (filledBy.symm.trans filledBy')
          obtain rfl := Option.some.inj (known.symm.trans known')
          obtain rfl := ih behind'
          obtain rfl := Except.ok.inj (made.symm.trans made')
          exact Option.some.inj (picked.symm.trans picked')

/-- The output that a temp names, out of those that an access yields. -/
def pick (table : AccessTable) (outputs : List Value) (temp : Temp) :
    Except WalkError (Temp × Value) :=
  let position := ((table.temp? temp).map (·.output)).getD 0
  match outputs[position]? with
  | some value => .ok (temp, value)
  | none => .error (.outOfBounds position outputs.length)

def contents (table : AccessTable) (access : Access) (kind : AccessKind) (value : Value) :
    Except WalkError (List (Temp × Value)) := do
  let outputs ← access.outputs kind value
  (table.outputsOf access).mapM (table.pick outputs)

theorem pick_eq_ok {table : AccessTable} {outputs : List Value} {temp : Temp}
    {content : Temp × Value} (picked : table.pick outputs temp = .ok content) :
    content.1 = temp ∧
      ∀ declared, table.temp? temp = some declared → outputs[declared.output]? = some content.2 := by
  unfold pick at picked
  dsimp only at picked
  split at picked
  · rename_i value found
    obtain rfl := Except.ok.inj picked
    refine ⟨rfl, fun declared isDeclared => ?_⟩
    rw [isDeclared] at found
    exact found
  · contradiction

variable {table : AccessTable} {access : Access} {kind : AccessKind} {value : Value}
  {filled : List (Temp × Value)}

theorem of_mem_contents (made : table.contents access kind value = .ok filled)
    {content : Temp × Value} (member : content ∈ filled) :
    ∃ declared outputs, table.temp? content.1 = some declared ∧
      declared.source = some access ∧ access.outputs kind value = .ok outputs ∧
      outputs[declared.output]? = some content.2 := by
  obtain ⟨outputs, yielded, allPicked⟩ := bind_eq_ok.mp made
  obtain ⟨temp, tempMember, picked⟩ :=
    exists_of_mem_forall₂ (mapM_eq_ok.mp allPicked) member
  obtain ⟨same, position⟩ := pick_eq_ok picked
  obtain ⟨declared, found, filledBy⟩ := mem_outputsOf.mp tempMember
  exact ⟨declared, outputs, by rw [same]; exact found, filledBy, yielded, position declared found⟩

theorem exists_mem_contents (made : table.contents access kind value = .ok filled) {temp : Temp}
    (member : temp ∈ table.outputsOf access) : ∃ result, (temp, result) ∈ filled := by
  obtain ⟨outputs, _, allPicked⟩ := bind_eq_ok.mp made
  obtain ⟨⟨filledTemp, result⟩, contentMember, picked⟩ :=
    exists_mem_of_forall₂ (mapM_eq_ok.mp allPicked) member
  obtain ⟨same, _⟩ := pick_eq_ok picked
  dsimp only at same
  subst same
  exact ⟨result, contentMember⟩

end AccessTable

namespace Slots

def fillAll (slots : Slots Value) (filled : List (Temp × Value)) : Slots Value :=
  filled.foldl (fun slots content => slots.set content.1 content.2) slots

@[simp] theorem size_cells_fillAll (slots : Slots Value) (filled : List (Temp × Value)) :
    (slots.fillAll filled).cells.size = slots.cells.size := by
  unfold fillAll
  induction filled generalizing slots with
  | nil => rfl
  | cons content rest ih =>
      rw [List.foldl_cons, ih, size_cells_set]

theorem get?_fillAll {slots : Slots Value} {filled : List (Temp × Value)} {temp : Temp}
    {value : Value} (found : (slots.fillAll filled).get? temp = some value) :
    (temp, value) ∈ filled ∨ slots.get? temp = some value := by
  unfold fillAll at found
  induction filled generalizing slots with
  | nil => exact Or.inr found
  | cons content rest ih =>
      rw [List.foldl_cons] at found
      rcases ih found with inRest | before
      · exact Or.inl (List.mem_cons_of_mem _ inRest)
      · rw [get?_set] at before
        split at before
        · rename_i here
          obtain rfl := Option.some.inj before
          rw [here.1]
          exact Or.inl List.mem_cons_self
        · exact Or.inr before

theorem isSome_fillAll {slots : Slots Value} (filled : List (Temp × Value)) {temp : Temp}
    (inside : temp.index < slots.cells.size)
    (put : (slots.get? temp).isSome ∨ ∃ value, (temp, value) ∈ filled) :
    ((slots.fillAll filled).get? temp).isSome := by
  unfold fillAll
  induction filled generalizing slots with
  | nil => simpa using put
  | cons content rest ih =>
      rw [List.foldl_cons]
      apply ih (by rw [size_cells_set]; exact inside)
      rw [get?_set]
      rcases put with before | ⟨value, member⟩
      · left
        split
        · rfl
        · exact before
      · rcases List.mem_cons.mp member with here | inRest
        · left
          subst here
          simp [inside]
        · exact Or.inr ⟨value, inRest⟩

theorem fill_eq (table : AccessTable) (outputs : List Value) (slots : Slots Value) (temp : Temp) :
    fill table outputs slots temp =
      (do let content ← table.pick outputs temp; return slots.set content.1 content.2) := by
  unfold fill AccessTable.pick
  dsimp only
  cases outputs[((table.temp? temp).map (·.output)).getD 0]? <;> rfl

theorem foldlM_fill (table : AccessTable) (outputs : List Value) (temps : List Temp)
    (slots : Slots Value) :
    temps.foldlM (fill table outputs) slots =
      (do let filled ← temps.mapM (table.pick outputs); return slots.fillAll filled) := by
  induction temps generalizing slots with
  | nil => rfl
  | cons temp rest ih =>
      rw [List.foldlM_cons, List.mapM_cons, fill_eq]
      cases table.pick outputs temp with
      | error error => rfl
      | ok content =>
          have onward := ih (slots.set content.1 content.2)
          simp only [bind, Except.bind, pure, Except.pure] at onward ⊢
          rw [onward]
          cases rest.mapM (table.pick outputs) <;> rfl

theorem perform_eq (table : AccessTable) (access : Access) (slots : Slots Value) :
    slots.perform table access =
      match table.access? access with
      | none => .error (.unknownAccess access)
      | some entry => do
          let input ← slots.read entry.input
          let filled ← table.contents access entry.kind input
          return slots.fillAll filled := by
  unfold perform AccessTable.contents
  cases table.access? access with
  | none => rfl
  | some entry => simp only [foldlM_fill, bind_assoc]

theorem read_eq_ok {slots : Slots Value} {temp : Temp} {value : Value} :
    slots.read temp = .ok value ↔ slots.get? temp = some value := by
  unfold read
  cases slots.get? temp <;> simp

theorem perform_eq_ok {table : AccessTable} {access : Access} {slots after : Slots Value} :
    slots.perform table access = .ok after ↔
      ∃ entry value filled, table.access? access = some entry ∧
        slots.get? entry.input = some value ∧
        table.contents access entry.kind value = .ok filled ∧ after = slots.fillAll filled := by
  rw [perform_eq]
  cases table.access? access with
  | none => simp
  | some entry =>
      simp only [bind_eq_ok, pure_eq_ok, read_eq_ok, Option.some.injEq]
      constructor
      · rintro ⟨value, found, filled, made, rfl⟩
        exact ⟨entry, value, filled, rfl, found, made, rfl⟩
      · rintro ⟨_, value, filled, rfl, found, made, rfl⟩
        exact ⟨value, found, filled, made, rfl⟩

/-- Slots in the course of a match on an input. -/
structure Sound (table : AccessTable) (input : Value) (slots : Slots Value) : Prop where
  sized : slots.cells.size = table.temps.length
  root : slots.get? .root = some input
  yields : ∀ temp value, slots.get? temp = some value → table.Yields input temp value

def Below (some' all : Slots Value) : Prop :=
  ∀ temp value, some'.get? temp = some value → all.get? temp = some value

variable {table : AccessTable} {input : Value} {slots after all : Slots Value} {access : Access}

theorem get?_ofInput {temp : Temp} {value : Value}
    (filled : (ofInput table input).get? temp = some value) : temp = .root ∧ value = input := by
  unfold ofInput at filled
  rw [get?_set] at filled
  split at filled
  · rename_i isRoot
    exact ⟨isRoot.1, (Option.some.inj filled).symm⟩
  · simp at filled

theorem sound_ofInput (rooted : table.Rooted) (input : Value) :
    (ofInput table input).Sound table input := by
  obtain ⟨declared, found, _⟩ := rooted
  have inside := AccessTable.temp?_inside found
  have cells : (blank table.temps.length : Slots Value).cells.size = table.temps.length := by
    simp [blank]
  refine ⟨by simp [ofInput, cells], by simp [ofInput, get?_set, cells, inside], ?_⟩
  intro temp value isFilled
  obtain ⟨rfl, rfl⟩ := get?_ofInput isFilled
  exact .root

theorem Sound.perform (sound : slots.Sound table input) (rooted : table.Rooted)
    (performed : slots.perform table access = .ok after) : after.Sound table input := by
  obtain ⟨entry, value, filled, known, found, made, rfl⟩ := perform_eq_ok.mp performed
  have yields : ∀ temp value, (slots.fillAll filled).get? temp = some value →
      table.Yields input temp value := by
    intro temp result isFilled
    rcases get?_fillAll isFilled with put | before
    · obtain ⟨declared, outputs, isDeclared, filledBy, yielded, picked⟩ :=
        AccessTable.of_mem_contents made put
      exact .output isDeclared filledBy known (sound.yields _ _ found) yielded picked
    · exact sound.yields temp result before
  refine ⟨by rw [size_cells_fillAll, sound.sized], ?_, yields⟩
  have isRooted := rooted
  obtain ⟨declared, isDeclared, _⟩ := rooted
  have inside := AccessTable.temp?_inside isDeclared
  have still : ((slots.fillAll filled).get? .root).isSome := isSome_fillAll filled
    (by rw [sound.sized]; exact inside) (Or.inl (by simp [sound.root]))
  obtain ⟨result, isFilled⟩ := Option.isSome_iff_exists.mp still
  rw [isFilled, (yields _ _ isFilled).unique isRooted .root]

theorem Sound.below (sound : slots.Sound table input) (others : all.Sound table input)
    (rooted : table.Rooted) (covered : ∀ temp, (slots.get? temp).isSome → (all.get? temp).isSome) :
    slots.Below all := by
  intro temp value found
  obtain ⟨other, isFilled⟩ := Option.isSome_iff_exists.mp (covered temp (by simp [found]))
  rw [isFilled, (others.yields _ _ isFilled).unique rooted (sound.yields _ _ found)]

theorem Sound.isSome_of_perform (sound : slots.Sound table input)
    (performed : slots.perform table access = .ok after) {temp : Temp}
    (filled : (slots.get? temp).isSome ∨ temp ∈ table.outputsOf access) :
    (after.get? temp).isSome := by
  obtain ⟨entry, value, contents, _, _, made, rfl⟩ := perform_eq_ok.mp performed
  have inside : temp.index < slots.cells.size := by
    rcases filled with before | member
    · obtain ⟨content, found⟩ := Option.isSome_iff_exists.mp before
      unfold get? at found
      exact (Array.getElem?_eq_some_iff.mp (Option.join_eq_some_iff.mp found)).1
    · obtain ⟨declared, found, _⟩ := AccessTable.mem_outputsOf.mp member
      rw [sound.sized]
      exact AccessTable.temp?_inside found
  exact isSome_fillAll contents inside (filled.imp id (AccessTable.exists_mem_contents made))

theorem outputsOf_of_perform (performed : slots.perform table access = .ok after) {temp : Temp}
    (filled : (after.get? temp).isSome) :
    (slots.get? temp).isSome ∨ temp ∈ table.outputsOf access := by
  obtain ⟨entry, value, contents, _, _, made, rfl⟩ := perform_eq_ok.mp performed
  obtain ⟨content, found⟩ := Option.isSome_iff_exists.mp filled
  rcases get?_fillAll found with put | before
  · obtain ⟨declared, _, isDeclared, filledBy, _⟩ := AccessTable.of_mem_contents made put
    exact Or.inr (AccessTable.mem_outputsOf.mpr ⟨declared, isDeclared, filledBy⟩)
  · simp [before]

theorem Sound.below_of_perform (sound : slots.Sound table input) (rooted : table.Rooted)
    (performed : slots.perform table access = .ok after) : slots.Below after :=
  sound.below (sound.perform rooted performed) rooted fun _ filled =>
    sound.isSome_of_perform performed (Or.inl filled)

theorem Sound.get?_of_perform (sound : slots.Sound table input) (rooted : table.Rooted)
    (performed : slots.perform table access = .ok after) {temp : Temp} {value : Value}
    (filled : after.get? temp = some value) :
    slots.get? temp = some value ∨ temp ∈ table.outputsOf access := by
  refine (outputsOf_of_perform performed (Option.isSome_of_eq_some filled)).imp_left fun before => ?_
  obtain ⟨earlier, earlierFilled⟩ := Option.isSome_iff_exists.mp before
  have still := sound.below_of_perform rooted performed _ _ earlierFilled
  rw [earlierFilled, ← still, filled]

/-- A cast puts the value that it casts, which is not null, into its outputs. -/
theorem Sound.get?_of_cast (sound : slots.Sound table input) (rooted : table.Rooted)
    (performed : slots.perform table access = .ok after) {entry : AccessEntry} {type : Ty}
    (known : table.access? access = some entry) (isCast : entry.kind = .cast type) {temp : Temp}
    (member : temp ∈ table.outputsOf access) :
    ∃ value, slots.get? entry.input = some value ∧ value.isNull = false ∧
      after.get? temp = some value := by
  obtain ⟨other, value, contents, otherKnown, found, made, _⟩ := perform_eq_ok.mp performed
  obtain rfl := Option.some.inj (known.symm.trans otherKnown)
  obtain ⟨result, filled⟩ :=
    Option.isSome_iff_exists.mp (sound.isSome_of_perform performed (Or.inr member))
  obtain ⟨outputs, yielded, _⟩ := bind_eq_ok.mp made
  obtain ⟨declared, isDeclared, filledBy⟩ := AccessTable.mem_outputsOf.mp member
  have notNull : value.isNull = false := by
    cases isNull : value.isNull with
    | false => rfl
    | true => simp [Access.outputs, isNull] at yielded
  have isOnly : outputs = [value] := by
    simpa [Access.outputs, notNull, isCast] using yielded.symm
  subst isOnly
  refine ⟨value, found, notNull, ?_⟩
  rw [filled]
  have yields := (sound.perform rooted performed).yields _ _ filled
  cases yields with
  | root =>
      obtain ⟨rootEntry, rootFound, noSource⟩ := rooted
      obtain rfl := Option.some.inj (rootFound.symm.trans isDeclared)
      rw [noSource] at filledBy
      contradiction
  | output isDeclared' filledBy' known' behind yielded' picked =>
      obtain rfl := Option.some.inj (isDeclared.symm.trans isDeclared')
      obtain rfl := Option.some.inj (filledBy.symm.trans filledBy')
      obtain rfl := Option.some.inj (known.symm.trans known')
      obtain rfl := behind.unique rooted (sound.yields _ _ found)
      obtain rfl := Except.ok.inj (yielded.symm.trans yielded')
      obtain ⟨_, isResult⟩ := List.getElem?_eq_some_iff.mp picked
      simpa using isResult.symm

theorem perform_eq_error {error : WalkError} (below : slots.Below all)
    (ready : ∀ entry, table.access? access = some entry → (slots.get? entry.input).isSome)
    (failed : all.perform table access = .error error) :
    slots.perform table access = .error error := by
  rw [perform_eq] at failed ⊢
  cases known : table.access? access with
  | none => rw [known] at failed; exact failed
  | some entry =>
      obtain ⟨value, found⟩ := Option.isSome_iff_exists.mp (ready entry known)
      have ownRead : slots.read entry.input = .ok value := read_eq_ok.mpr found
      have sameRead : all.read entry.input = .ok value := read_eq_ok.mpr (below _ _ found)
      rw [known] at failed
      simp only [sameRead, ownRead, bind, Except.bind] at failed ⊢
      cases made : table.contents access entry.kind value with
      | error other => simpa [made] using failed
      | ok filled => simp [made, pure, Except.pure] at failed

theorem Below.trans {most : Slots Value} (front : slots.Below all) (back : all.Below most) :
    slots.Below most :=
  fun temp value found => back temp value (front temp value found)

theorem capture_eq_of_below (below : slots.Below all) {bindings : List Binding}
    (ready : ∀ binding ∈ bindings, (slots.get? binding.temp).isSome) :
    ∃ bound, slots.capture bindings = .ok bound ∧ all.capture bindings = .ok bound := by
  unfold capture
  induction bindings with
  | nil => exact ⟨[], rfl, rfl⟩
  | cons binding rest ih =>
      obtain ⟨value, found⟩ := Option.isSome_iff_exists.mp (ready binding List.mem_cons_self)
      obtain ⟨bound, own, same⟩ := ih fun other member => ready other (List.mem_cons_of_mem _ member)
      refine ⟨(binding.name, value) :: bound, ?_, ?_⟩
      · rw [List.mapM_cons, own, read_eq_ok.mpr found]
        rfl
      · rw [List.mapM_cons, same, read_eq_ok.mpr (below _ _ found)]
        rfl

theorem capture_of_below (below : slots.Below all) {bindings : List Binding}
    {bound : List (Symbol × Value)} (captured : slots.capture bindings = .ok bound) :
    all.capture bindings = .ok bound := by
  unfold capture at captured ⊢
  rw [mapM_eq_ok] at captured ⊢
  refine captured.imp fun binding content read => ?_
  obtain ⟨value, found, isContent⟩ := bind_eq_ok.mp read
  exact bind_eq_ok.mpr
    ⟨value, read_eq_ok.mpr (below _ _ (read_eq_ok.mp found)), isContent⟩

theorem mem_of_capture {bindings : List Binding} {bound : List (Symbol × Value)}
    (captured : slots.capture bindings = .ok bound) {binding : Binding}
    (member : binding ∈ bindings) {value : Value} (filled : slots.get? binding.temp = some value) :
    (binding.name, value) ∈ bound := by
  obtain ⟨content, inBound, read⟩ := exists_mem_of_forall₂ (mapM_eq_ok.mp captured) member
  obtain ⟨other, found, isContent⟩ := bind_eq_ok.mp read
  obtain rfl := Option.some.inj (filled.symm.trans (read_eq_ok.mp found))
  obtain rfl := Except.ok.inj isContent
  exact inBound

theorem capture_append {front back : List Binding} {first second : List (Symbol × Value)}
    (one : slots.capture front = .ok first) (other : slots.capture back = .ok second) :
    slots.capture (front ++ back) = .ok (first ++ second) := by
  unfold capture at one other ⊢
  rw [mapM_eq_ok] at one other ⊢
  exact List.rel_append one other

theorem capture_singleton {name : Symbol} {temp : Temp} {value : Value}
    (found : slots.get? temp = some value) :
    slots.capture [⟨name, temp⟩] = .ok [(name, value)] := by
  unfold capture
  rw [mapM_eq_ok]
  exact .cons (bind_eq_ok.mpr ⟨value, read_eq_ok.mpr found, rfl⟩) .nil

end Slots

end MatchCompiler
