import Mathlib
import MatchCompiler.Proofs.DecisionGraph.Freshness
import MatchCompiler.Proofs.Flow.Merge
import MatchCompiler.Proofs.Impossible
import MatchCompiler.Proofs.Pattern.Binders

/-!
# What a path tells about a value

A path fills a slot before it asks about it, and it does not fill it again. Later
tests of the same value are ones that no earlier outcome settles. So what an
outcome tells about null stays told, although later tests narrow the fact, and a
type other than the static one was asked for and confirmed. A cast is made of a
value that is not null, and nothing that is asked of its output takes that back.
-/

set_option autoImplicit false

namespace MatchCompiler

/-! ## One test -/

namespace Predicate

variable {types : TypeOracle} {nonNullable outcome : Bool} {known asked : Predicate} {fact : Fact}

theorem notNull_of_nullness (told : known.nullness outcome = some false) (fact : Fact) :
    (known.refine outcome fact).nullness = .notNull := by
  cases known with
  | nonNull | isNull => cases outcome <;> first | rfl | contradiction
  | ofType type => cases outcome <;> first | rfl | contradiction
  | equals constant =>
      cases outcome with
      | true =>
          have valued : constant.isNull = false := Option.some.inj told
          simp [refine, valued]
      | false => cases constant <;> first | rfl | contradiction
  | never => contradiction

/-- Only an outcome that null has been found takes back that a value is not null. -/
theorem notNull_refine (notNull : fact.nullness = .notNull)
    (unfound : ¬ (known = .isNull ∧ outcome = true))
    (valued : ∀ constant, known = .equals constant → constant.isNull = false) :
    (known.refine outcome fact).nullness = .notNull := by
  cases known with
  | nonNull | ofType type => cases outcome <;> first | rfl | exact notNull
  | isNull =>
      cases outcome with
      | true => exact absurd ⟨rfl, rfl⟩ unfound
      | false => rfl
  | equals constant =>
      have isValue := valued constant rfl
      cases outcome with
      | true => simp [refine, isValue]
      | false => cases constant <;> first | exact notNull | rfl
  | never => cases outcome <;> exact notNull

theorem nullness_of_implied (demands : asked = .nonNull ∨ ∃ type, asked = .ofType type)
    (told : known.implied types nonNullable outcome asked = some true) :
    known.nullness outcome = some false := by
  unfold implied at told
  split at told
  · rename_i same
    obtain rfl := Option.some.inj told
    rcases demands with rfl | ⟨type, rfl⟩ <;> rw [same] <;> rfl
  · split at told
    · rcases demands with rfl | ⟨type, rfl⟩ <;> simp [onNull] at told
    · assumption
    · rename_i untold
      rcases demands with rfl | ⟨type, rfl⟩
      · cases known <;> cases outcome <;> simp [related] at told
      · cases known <;> cases outcome <;> simp [related, nullness] at told untold

theorem onNonNull_of_implied (told : known.nullness outcome = some false)
    (left : known.implied types nonNullable outcome asked = none) : asked.onNonNull = none := by
  unfold implied at left
  split at left
  · contradiction
  · rw [told] at left
    exact (Option.or_eq_none_iff.mp left).1

theorem eq_never_of_isNull (left : Predicate.isNull.implied types nonNullable true asked = none) :
    asked = .never := by
  cases asked <;> simp [implied, nullness, onNull] at left ⊢

end Predicate

/-! ## Turns -/

variable {types : TypeOracle} {table : AccessTable} {turns : List Turn} {turn : Turn}
  {facts : Facts} {temp : Temp} {fact : Fact}

theorem Turn.get?_transfer (found : (turn.transfer types table facts).get? temp = some fact) :
    (∃ made entry, turn = .access made ∧ table.access? made = some entry ∧
        temp ∈ table.outputsOf made ∧
        fact = Facts.produced types table entry.kind (facts.get? entry.input) temp) ∨
      (∃ predicate outcome before, turn = .test ⟨temp, predicate⟩ outcome ∧
        facts.get? temp = some before ∧ fact = predicate.refine outcome before) ∨
      facts.get? temp = some fact := by
  cases turn with
  | access made =>
      rcases Facts.get?_afterAccess found with before | ⟨entry, isEntry, isOutput, rfl⟩
      · exact Or.inr (Or.inr before)
      · exact Or.inl ⟨made, entry, rfl, isEntry, isOutput, rfl⟩
  | test asked outcome =>
      unfold transfer Facts.afterTest at found
      rw [Slots.get?_update] at found
      split at found
      · rename_i isSubject
        subst isSubject
        obtain ⟨before, isBefore, rfl⟩ := Option.map_eq_some_iff.mp found
        exact Or.inr (Or.inl ⟨_, outcome, before, rfl, isBefore, rfl⟩)
      · exact Or.inr (Or.inr found)
  | bind arm accepted => exact Or.inr (Or.inr found)

/-- What holds of a slot as it is filled, and is kept by what is asked about it
later, holds at the end of the turns. -/
theorem Facts.invariant_along (kept : Fact → Prop)
    (begins : temp = .root → kept (.ofStatic types table .root))
    (produces : ∀ front made entry back, turns = front ++ .access made :: back →
      table.access? made = some entry → temp ∈ table.outputsOf made →
      kept (produced types table entry.kind ((along types table front).get? entry.input) temp))
    (keeps : ∀ predicate outcome before, .test ⟨temp, predicate⟩ outcome ∈ turns → kept before →
      kept (predicate.refine outcome before))
    (found : (along types table turns).get? temp = some fact) : kept fact := by
  induction turns using List.reverseRecOn generalizing fact with
  | nil =>
      unfold along initial at found
      rw [List.foldl_nil, Slots.get?_set] at found
      split at found
      · rename_i isRoot
        obtain rfl := Option.some.inj found
        exact begins isRoot.1
      · simp at found
  | append_singleton turns turn ih =>
      have earlier : ∀ fact, (along types table turns).get? temp = some fact → kept fact := by
        refine fun fact found => ih ?_ ?_ found
        · rintro front made entry back rfl isEntry isOutput
          exact produces front made entry (back ++ [turn]) (by simp) isEntry isOutput
        · intro predicate outcome before member
          exact keeps predicate outcome before (List.mem_append_left _ member)
      rw [along_snoc] at found
      rcases Turn.get?_transfer found with
        ⟨made, entry, rfl, isEntry, isOutput, rfl⟩ | ⟨predicate, outcome, before, rfl, isBefore, rfl⟩ |
        same
      · exact produces turns made entry [] rfl isEntry isOutput
      · exact keeps predicate outcome before (by simp) (earlier before isBefore)
      · exact earlier fact same

theorem Facts.type_produced (lawful : table.Lawful) {made : Access} {entry : AccessEntry}
    (isEntry : table.access? made = some entry) (isOutput : temp ∈ table.outputsOf made)
    (input : Option Fact) :
    (Facts.produced types table entry.kind input temp).type = table.typeOf temp := by
  obtain ⟨declared, isDeclared, filledBy⟩ := AccessTable.mem_outputsOf.mp isOutput
  obtain ⟨_, sameEntry, _, castType⟩ := lawful.sourced isDeclared filledBy
  obtain rfl := Option.some.inj (isEntry.symm.trans sameEntry)
  unfold produced
  split
  · rename_i type before isCast
    exact ((AccessTable.typeOf_of_temp? isDeclared).trans (castType type isCast)).symm
  · rfl

theorem Facts.type_along (lawful : table.Lawful)
    (found : (Facts.along types table turns).get? temp = some fact) :
    fact.type = table.typeOf temp ∨ .test ⟨temp, .ofType fact.type⟩ true ∈ turns := by
  refine invariant_along (fun fact => fact.type = table.typeOf temp ∨
    .test ⟨temp, .ofType fact.type⟩ true ∈ turns) ?_ ?_ ?_ found
  · rintro rfl
    exact Or.inl rfl
  · intro front made entry back _ isEntry isOutput
    exact Or.inl (type_produced lawful isEntry isOutput _)
  · intro predicate outcome before member told
    -- a type test that passes sets the type, and other outcomes leave it alone
    by_cases passes : ∃ type, predicate = .ofType type ∧ outcome = true
    · obtain ⟨type, rfl, rfl⟩ := passes
      exact Or.inr member
    · have sameType : (predicate.refine outcome before).type = before.type := by
        cases predicate with
        | ofType type => cases outcome <;> first | rfl | exact absurd ⟨type, rfl, rfl⟩ passes
        | equals constant => cases outcome <;> cases constant <;> rfl
        | nonNull | isNull | never => cases outcome <;> rfl
      rwa [sameType]

/-! ## Paths -/

namespace DecisionGraph

variable {graph : DecisionGraph} {problem : MergeProblem} {id next : NodeId} {node : Node}
  {made : Access}

theorem BuiltFrom.exists_mem_steps (builtFrom : graph.BuiltFrom problem)
    (path : graph.Path graph.root turns id) (member : turn ∈ turns) {step : Step}
    (carriesOut : turn.step? = some step) : ∃ own, step ∈ (problem.checklist own).steps := by
  obtain ⟨front, back, rfl⟩ := List.append_of_mem member
  obtain ⟨source, node, target, before, stored, taken⟩ := path.exists_of_split
  have asksFor : node.step? = some step := (Node.step?_of_turn taken).trans carriesOut
  rcases before.represents builtFrom.represents with here | ⟨_, _, _, _, _, leaf⟩
  · obtain ⟨pending, inState, isHead⟩ := waiting_of_represents here stored asksFor
    exact ⟨pending.arm, (Residual.leftOf_along inState).subset (List.mem_of_mem_head? isHead)⟩
  · obtain rfl := Option.some.inj (stored.symm.trans leaf)
    contradiction

theorem BuiltFrom.apt_of_mem (builtFrom : graph.BuiltFrom problem)
    (apt : ∀ own, ∀ step ∈ (problem.checklist own).steps, step.Apt problem.types problem.table)
    (path : graph.Path graph.root turns id) {asked : Test} {outcome : Bool}
    (member : .test asked outcome ∈ turns) : (Step.test asked).Apt problem.types graph.table := by
  obtain ⟨own, inSteps⟩ := builtFrom.exists_mem_steps path member rfl
  exact builtFrom.sameTable ▸ apt own _ inSteps

/-- A slot that was asked about was filled before, so no access fills it again. -/
theorem BuiltFrom.not_mem_outputsOf_of_asked (builtFrom : graph.BuiltFrom problem)
    (path : graph.Path graph.root turns id) {asked : Test} {outcome : Bool}
    (member : .test asked outcome ∈ turns) (found : graph.node? id = some (.access made next)) :
    asked.subject ∉ graph.table.outputsOf made := by
  intro isOutput
  obtain ⟨declared, isDeclared, filledBy⟩ := AccessTable.mem_outputsOf.mp isOutput
  obtain ⟨front, back, rfl⟩ := List.append_of_mem member
  obtain ⟨source, node, target, before, stored, taken⟩ := path.exists_of_split
  have carriesOut : node.step? = some (.test asked) := Node.step?_of_turn taken
  rcases builtFrom.supplied before stored carriesOut rfl with isRoot | ⟨earlier, inFront, _, filled⟩
  · obtain ⟨rootEntry, rootFound, noSource⟩ := builtFrom.lawful.rooted
    rw [← builtFrom.sameTable, ← isRoot, isDeclared] at rootFound
    obtain rfl := Option.some.inj rootFound
    rw [noSource] at filledBy
    contradiction
  · obtain ⟨_, sameDeclared, filledEarlier⟩ := AccessTable.mem_outputsOf.mp filled
    obtain rfl := Option.some.inj (isDeclared.symm.trans sameDeclared)
    obtain rfl := Option.some.inj (filledBy.symm.trans filledEarlier)
    -- it would be made twice
    have carriesOut : (Node.access made next).step? = some (.access made) := rfl
    have unsettled := path.settles builtFrom.represents found carriesOut _
      (List.mem_append_left _ inFront)
    simp [Turn.settles] at unsettled

/-- What an outcome establishes holds at the end of a path, if the tests that the
outcome does not settle keep it. -/
theorem BuiltFrom.kept_of_asked (builtFrom : graph.BuiltFrom problem)
    (path : graph.Path graph.root turns id) {known : Predicate} {outcome : Bool}
    (member : .test ⟨temp, known⟩ outcome ∈ turns) (kept : Fact → Prop)
    (begins : ∀ fact, kept (known.refine outcome fact))
    (keeps : ∀ asked came fact, known.implied problem.types
      (!problem.types.canBeNull (problem.table.typeOf temp)) outcome asked = none →
      kept fact → kept (asked.refine came fact))
    (found : (Facts.along types graph.table turns).get? temp = some fact) : kept fact := by
  induction path generalizing fact with
  | nil => exact absurd member List.not_mem_nil
  | @snoc turns source target node turn path stored taken ih =>
      rw [Facts.along_snoc] at found
      rcases List.mem_append.mp member with earlier | isLast
      · rcases Turn.get?_transfer found with
          ⟨made, entry, rfl, isEntry, isOutput, rfl⟩ |
          ⟨asked, came, before, rfl, isBefore, rfl⟩ | same
        · obtain rfl := Node.eq_access_of_turn taken
          exact absurd isOutput (builtFrom.not_mem_outputsOf_of_asked path earlier stored)
        · have carriesOut : node.step? = some (.test ⟨temp, asked⟩) := Node.step?_of_turn taken
          have left := path.settles builtFrom.represents stored carriesOut _ earlier
          rw [Turn.settles, Residual.settled, if_pos rfl] at left
          exact keeps asked came before left (ih earlier isBefore)
        · exact ih earlier same
      · obtain rfl := List.mem_singleton.mp isLast
        unfold Turn.transfer Facts.afterTest at found
        rw [Slots.get?_update, if_pos rfl] at found
        obtain ⟨before, _, rfl⟩ := Option.map_eq_some_iff.mp found
        exact begins before

theorem BuiltFrom.notNull_of_told (builtFrom : graph.BuiltFrom problem)
    (path : graph.Path graph.root turns id) {known : Predicate} {outcome : Bool}
    (member : .test ⟨temp, known⟩ outcome ∈ turns) (told : known.nullness outcome = some false)
    (found : (Facts.along types graph.table turns).get? temp = some fact) :
    fact.nullness = .notNull := by
  refine builtFrom.kept_of_asked path member (fun fact => fact.nullness = .notNull)
    (Predicate.notNull_of_nullness told) ?_ found
  intro asked came before left notNull
  have noNull := Predicate.onNonNull_of_implied told left
  refine Predicate.notNull_refine notNull ?_ ?_
  · rintro ⟨rfl, _⟩
    contradiction
  · rintro constant rfl
    cases constant with
    | null => contradiction
    | bool | int | char | str | float => rfl

theorem BuiltFrom.maybeNull_of_found (builtFrom : graph.BuiltFrom problem)
    (path : graph.Path graph.root turns id) (member : .test ⟨temp, .isNull⟩ true ∈ turns)
    (found : (Facts.along types graph.table turns).get? temp = some fact) :
    fact.nullness = .maybeNull := by
  refine builtFrom.kept_of_asked path member (fun fact => fact.nullness = .maybeNull)
    (fun _ => rfl) ?_ found
  intro asked came before left maybeNull
  rw [Predicate.eq_never_of_isNull left]
  cases came <;> exact maybeNull

theorem BuiltFrom.notNull_of_settled (builtFrom : graph.BuiltFrom problem)
    (path : graph.Path graph.root turns id) {asked : Predicate}
    (demands : asked = .nonNull ∨ ∃ type, asked = .ofType type) (member : turn ∈ turns)
    (settled : turn.settles problem (.test ⟨temp, asked⟩) = some true)
    (found : (Facts.along types graph.table turns).get? temp = some fact) :
    fact.nullness = .notNull := by
  cases turn with
  | access made => simp [Turn.settles] at settled
  | bind arm accepted => contradiction
  | test known outcome =>
      rw [Turn.settles] at settled
      obtain ⟨_, isAsked, sameSubject, told⟩ := MergeProblem.settled_eq_some settled
      obtain rfl := Step.test.inj isAsked
      obtain ⟨subject, predicate⟩ := known
      obtain rfl : temp = subject := sameSubject
      exact builtFrom.notNull_of_told path member (Predicate.nullness_of_implied demands told) found

end DecisionGraph

end MatchCompiler
