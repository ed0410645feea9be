import MatchCompiler.Proofs.Fact
import MatchCompiler.Proofs.Pattern.Sequence
import MatchCompiler.Proofs.Tracking

/-!
# Slots conform to static types

A walk makes a cast only where the type test in front of it has come out true,
so where the other slots conform to the static types of their temps, casts do.
-/

set_option autoImplicit false

namespace MatchCompiler

def AccessTable.IsCast (table : AccessTable) (temp : Temp) : Prop :=
  ∃ declared source entry type, table.temp? temp = some declared ∧
    declared.source = some source ∧ table.access? source = some entry ∧ entry.kind = .cast type

theorem AccessTable.not_isCast_root {table : AccessTable} (rooted : table.Rooted) :
    ¬table.IsCast .root := by
  rintro ⟨declared, source, _, _, found, filledBy, _⟩
  obtain ⟨rootEntry, rootFound, noSource⟩ := rooted
  obtain rfl := Option.some.inj (rootFound.symm.trans found)
  rw [noSource] at filledBy
  contradiction

theorem AccessTable.isCast_iff_of_output {table : AccessTable} {made : Access}
    {entry : AccessEntry} {temp : Temp} (isEntry : table.access? made = some entry)
    (isOutput : temp ∈ table.outputsOf made) :
    table.IsCast temp ↔ ∃ type, entry.kind = .cast type := by
  obtain ⟨declared, isDeclared, filledBy⟩ := AccessTable.mem_outputsOf.mp isOutput
  constructor
  · rintro ⟨_, _, _, type, sameDeclared, filledBySame, sameEntry, isCast⟩
    obtain rfl := Option.some.inj (isDeclared.symm.trans sameDeclared)
    obtain rfl := Option.some.inj (filledBy.symm.trans filledBySame)
    obtain rfl := Option.some.inj (isEntry.symm.trans sameEntry)
    exact ⟨type, isCast⟩
  · rintro ⟨type, isCast⟩
    exact ⟨declared, made, entry, type, isDeclared, filledBy, isEntry, isCast⟩

namespace DecisionGraph

/-- The match input, and whatever a walk gets by an access other than a cast,
conforms to the static type of its temp. -/
def Conforms (graph : DecisionGraph) (types : TypeOracle) (typing : Typing)
    (oracle : GuardOracle) (input : Value) : Prop :=
  ∀ {id : NodeId} {progress : Progress} {temp : Temp} {value : Value},
    graph.Visits typing oracle input id progress → progress.slots.get? temp = some value →
    ¬graph.table.IsCast temp → typing.Conforms types (graph.table.typeOf temp) value

variable {graph : DecisionGraph} {problem : MergeProblem} {typing : Typing} {oracle : GuardOracle}
  {input : Value} {id : NodeId} {progress : Progress}

theorem slots_of_proceed {table : AccessTable} {node : Node} {target : NodeId} {after : Progress}
    (advanced : node.advance table typing oracle progress = .proceed target after) :
    after.slots = progress.slots ∨
      ∃ made, node = .access made target ∧ progress.slots.perform table made = .ok after.slots := by
  cases node with
  | access made next =>
      obtain ⟨rfl, slots, performed, rfl⟩ := Advance.access_eq_proceed advanced
      exact Or.inr ⟨made, rfl, performed⟩
  | test asked onTrue onFalse =>
      obtain ⟨_, _, _, rfl⟩ := Advance.choose_eq_proceed advanced
      exact Or.inl rfl
  | bind arm label bindings guard accepted rejected =>
      cases guard with
      | none =>
          obtain ⟨_, _, _, rfl⟩ := Advance.bind_eq_proceed advanced
          exact Or.inl rfl
      | some condition =>
          obtain ⟨_, _, ⟨_, _, rfl⟩ | ⟨_, _, rfl⟩⟩ := Advance.guard_eq_proceed advanced
          · exact Or.inl rfl
          · exact Or.inl rfl
  | success arm label => cases advanced
  | failure => cases advanced

theorem Visits.sound (rooted : graph.table.Rooted)
    (visited : graph.Visits typing oracle input id progress) :
    progress.slots.Sound graph.table input := by
  induction visited with
  | root => exact Slots.sound_ofInput rooted input
  | next _ _ advanced ih =>
      rcases slots_of_proceed advanced with same | ⟨made, _, performed⟩
      · rw [same]
        exact ih
      · exact ih.perform rooted performed

/-- Every cast that waits is behind the test that it trusts. -/
theorem isInstance_of_waiting
    (guarded : ∀ arm, Step.Throughout (Step.CastGuarded problem.table) []
      (problem.checklist arm).steps)
    {state : Residual problem.checklists.size} (tracks : problem.Tracks typing input state progress)
    {made : Access} (waiting : ∃ pending ∈ state, pending.todo.head? = some (.access made))
    {entry : AccessEntry} {type : Ty} (known : problem.table.access? made = some entry)
    (isCast : entry.kind = .cast type) :
    ∃ value, progress.slots.get? entry.input = some value ∧ typing.isInstance value type = true := by
  obtain ⟨pending, member, isHead⟩ := waiting
  obtain ⟨front, back, split, done⟩ := (tracks.remain pending member).head isHead
  rcases guarded pending.arm front _ back split made entry type rfl known isCast with
    tested | impossible
  · exact done _ tested
  · obtain ⟨_, _, holds⟩ := done _ impossible
    contradiction

variable {types : TypeOracle}

theorem conforms_of_cast {table : AccessTable} {slots after : Slots Value} (lawful : table.Lawful)
    (sound : slots.Sound table input) {made : Access}
    (performed : slots.perform table made = .ok after) {entry : AccessEntry} {type : Ty}
    (known : table.access? made = some entry) (isCast : entry.kind = .cast type)
    (isInstance : ∃ value, slots.get? entry.input = some value ∧
      typing.isInstance value type = true)
    {temp : Temp} (member : temp ∈ table.outputsOf made) {value : Value}
    (filled : after.get? temp = some value) :
    typing.Conforms types (table.typeOf temp) value := by
  obtain ⟨content, found, isInstance⟩ := isInstance
  obtain ⟨same, sameFound, notNull, sameFilled⟩ :=
    sound.get?_of_cast lawful.rooted performed known isCast member
  obtain rfl := Option.some.inj (found.symm.trans sameFound)
  obtain rfl := Option.some.inj (filled.symm.trans sameFilled)
  obtain ⟨declared, isDeclared, filledBy⟩ := AccessTable.mem_outputsOf.mp member
  obtain ⟨_, sameKnown, _, castType⟩ := lawful.sourced isDeclared filledBy
  obtain rfl := Option.some.inj (known.symm.trans sameKnown)
  rw [AccessTable.typeOf_of_temp? isDeclared, castType type isCast]
  exact ⟨fun isNull => absurd notNull (by simp [isNull]), fun _ => isInstance⟩

theorem Visits.typed (lawful : graph.table.Lawful) (sameTable : graph.table = problem.table)
    (guarded : ∀ arm, Step.Throughout (Step.CastGuarded problem.table) []
      (problem.checklist arm).steps)
    (tracked : ∀ {id progress}, graph.Visits typing oracle input id progress →
      graph.InStep problem typing input id progress ∨
        graph.Binds problem typing oracle input id progress)
    (conforms : graph.Conforms types typing oracle input)
    (visited : graph.Visits typing oracle input id progress) :
    progress.slots.Typed types typing graph.table := by
  induction visited with
  | root =>
      intro temp value filled
      apply conforms .root filled
      obtain ⟨rfl, rfl⟩ := Slots.get?_ofInput filled
      exact AccessTable.not_isCast_root lawful.rooted
  | next visited found advanced ih =>
      intro temp value filled
      by_cases isCast : graph.table.IsCast temp
      · rcases slots_of_proceed advanced with same | ⟨made, rfl, performed⟩
        · exact ih temp value (same ▸ filled)
        · have sound := visited.sound lawful.rooted
          rcases sound.get?_of_perform lawful.rooted performed filled with before | member
          · exact ih temp value before
          · obtain ⟨declared, source, entry, type, isDeclared, filledBy, known, kind⟩ := isCast
            obtain ⟨_, sameDeclared, filledByMade⟩ := AccessTable.mem_outputsOf.mp member
            obtain rfl := Option.some.inj (isDeclared.symm.trans sameDeclared)
            obtain rfl := Option.some.inj (filledBy.symm.trans filledByMade)
            rcases tracked visited with ⟨state, represents, tracks⟩ | binds
            · exact conforms_of_cast lawful sound performed known kind
                (isInstance_of_waiting guarded tracks
                  (waiting_of_represents represents found rfl) (sameTable ▸ known) kind)
                member filled
            · exact absurd advanced (binds.not_proceed found)
      · exact conforms (visited.next found advanced) filled isCast

end DecisionGraph

end MatchCompiler
