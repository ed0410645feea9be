import Mathlib
import MatchCompiler.Proofs.Compile
import MatchCompiler.Proofs.Conformance

/-!
# What patterns ask and bind

A pattern asks for a type only where the static type leaves open whether a value
has it, and it asks for null only of a value that it examines, never of one that
a cast yields. Each variable of a pattern goes with the part that binds it. Where
that part asks for a type or for members, its variable is bound behind a null
test, or to what a cast yields, unless null is excluded anyway.
-/

set_option autoImplicit false

namespace MatchCompiler

namespace Pattern

/-- A pattern of a type, or one with parts. Null never matches it. -/
def demandsValue : Pattern → Bool
  | .typed .. | .compound .. => true
  | .discard _ | .var .. | .constant .. => false

mutual

/-- The variables in the order of their binding, each with the pattern that binds
it. -/
def binders : Pattern → List (Symbol × Pattern)
  | .discard _ | .constant .. => []
  | .var input name => [(name, .var input name)]
  | .typed input declared name => name.toList.map (·, .typed input declared name)
  | .compound input declared none members name =>
      memberBinders members ++ name.toList.map (·, .compound input declared none members name)
  | .compound input declared (some (shape, parts)) members name =>
      partBinders parts ++ memberBinders members ++
        name.toList.map (·, .compound input declared (some (shape, parts)) members name)

def partBinders : List Pattern → List (Symbol × Pattern)
  | [] => []
  | part :: parts => binders part ++ partBinders parts

def memberBinders : List (Member × Pattern) → List (Symbol × Pattern)
  | [] => []
  | (_, pattern) :: members => binders pattern ++ memberBinders members

end

mutual

theorem map_fst_binders : ∀ pattern : Pattern, pattern.binders.map Prod.fst = pattern.boundNames
  | .discard _ | .constant .. | .var .. => by simp [binders, boundNames]
  | .typed _ _ name => by cases name <;> simp [binders, boundNames]
  | .compound _ _ none members name => by
      cases name <;> simp [binders, boundNames, map_fst_memberBinders members]
  | .compound _ _ (some (_, parts)) members name => by
      cases name <;>
        simp [binders, boundNames, map_fst_partBinders parts, map_fst_memberBinders members]

theorem map_fst_partBinders : ∀ parts : List Pattern,
    (partBinders parts).map Prod.fst = partNames parts
  | [] => by simp [partBinders, partNames]
  | part :: parts => by
      simp [partBinders, partNames, map_fst_binders part, map_fst_partBinders parts]

theorem map_fst_memberBinders : ∀ members : List (Member × Pattern),
    (memberBinders members).map Prod.fst = memberNames members
  | [] => by simp [memberBinders, memberNames]
  | (_, pattern) :: members => by
      simp [memberBinders, memberNames, map_fst_binders pattern, map_fst_memberBinders members]

end

end Pattern

/-! ## Steps and bindings -/

/-- A step that a pattern can come to: the static type leaves open whether a value
has the type that is asked for, null is asked for where no cast was made, and no
constant is null. -/
structure Step.Apt (types : TypeOracle) (table : AccessTable) (step : Step) : Prop where
  undecided : ∀ {temp type}, step = .test ⟨temp, .ofType type⟩ →
    types.classify (table.typeOf temp) type = .tested
  examined : ∀ {temp}, step = .test ⟨temp, .isNull⟩ → ¬ table.IsCast temp
  valued : ∀ {temp value}, step = .test ⟨temp, .equals value⟩ → value.isNull = false

/-- A temp is not null behind some steps, whatever its static type: it was tested,
or a cast let it through. -/
def Step.Checked (table : AccessTable) (steps : List Step) (temp : Temp) : Prop :=
  .test ⟨temp, .nonNull⟩ ∈ steps ∨ table.IsCast temp

/-- A variable is bound by its pattern. Where the pattern refuses null and the
value that it examines could be null, the value was checked before. -/
structure Binding.BoundBy (types : TypeOracle) (table : AccessTable) (steps : List Step)
    (binder : Symbol × Pattern) (binding : Binding) : Prop where
  name : binding.name = binder.1
  checked : binder.2.demandsValue = true → types.canBeNull binder.2.input = true →
    Step.Checked table steps binding.temp

/-- A fragment whose steps are apt, with a binding for each of the binders. -/
structure Fragment.Suits (types : TypeOracle) (table : AccessTable)
    (binders : List (Symbol × Pattern)) (fragment : Fragment) : Prop where
  apt : ∀ step ∈ fragment.steps, step.Apt types table
  bound : List.Forall₂ (Binding.BoundBy types table fragment.steps) binders fragment.bindings

section Steps

variable {types : TypeOracle} {table : AccessTable} {steps more : List Step} {temp : Temp}
  {binders others : List (Symbol × Pattern)} {bindings : List Binding} {front back fragment : Fragment}

theorem Step.apt_access (made : Access) : (Step.access made).Apt types table :=
  ⟨nofun, nofun, nofun⟩

theorem Step.apt_nonNull (temp : Temp) : (Step.test ⟨temp, .nonNull⟩).Apt types table :=
  ⟨nofun, nofun, nofun⟩

theorem Step.apt_never (temp : Temp) : (Step.test ⟨temp, .never⟩).Apt types table :=
  ⟨nofun, nofun, nofun⟩

theorem Step.apt_equals {value : Const} (valued : value.isNull = false) (temp : Temp) :
    (Step.test ⟨temp, .equals value⟩).Apt types table where
  undecided := nofun
  examined := nofun
  valued := by
    rintro _ _ ⟨⟩
    exact valued

theorem Step.apt_isNull (examined : ¬ table.IsCast temp) :
    (Step.test ⟨temp, .isNull⟩).Apt types table where
  undecided := nofun
  examined := by
    rintro _ ⟨⟩
    exact examined
  valued := nofun

theorem Step.apt_ofType {type : Ty} (tested : types.classify (table.typeOf temp) type = .tested) :
    (Step.test ⟨temp, .ofType type⟩).Apt types table where
  undecided := by
    rintro _ _ ⟨⟩
    exact tested
  examined := nofun
  valued := nofun

theorem Binding.boundBy_mono (subset : steps ⊆ more)
    (bound : List.Forall₂ (Binding.BoundBy types table steps) binders bindings) :
    List.Forall₂ (Binding.BoundBy types table more) binders bindings :=
  bound.imp fun _ _ boundBy => ⟨boundBy.name, fun demands nullable =>
    (boundBy.checked demands nullable).imp_left fun tested => subset tested⟩

namespace Fragment.Suits

theorem empty : Fragment.empty.Suits types table [] :=
  ⟨fun _ member => absurd member List.not_mem_nil, .nil⟩

theorem append (first : front.Suits types table binders) (second : back.Suits types table others) :
    (front ++ back).Suits types table (binders ++ others) where
  apt := by
    intro step member
    rcases List.mem_append.mp member with inFront | inBack
    · exact first.apt step inFront
    · exact second.apt step inBack
  bound := by
    have early := Binding.boundBy_mono (List.subset_append_left _ back.steps) first.bound
    have late := Binding.boundBy_mono (List.subset_append_right front.steps _) second.bound
    exact List.rel_append early late

theorem after (apt : ∀ step ∈ steps, step.Apt types table)
    (suits : fragment.Suits types table binders) :
    (fragment.after steps).Suits types table binders where
  apt := by
    intro step member
    rcases List.mem_append.mp member with inFront | inBack
    · exact apt step inFront
    · exact suits.apt step inBack
  bound := Binding.boundBy_mono (List.subset_append_right steps _) suits.bound

theorem bindAfter {name : Option Symbol} {pattern : Pattern}
    (suits : fragment.Suits types table binders) (apt : ∀ step ∈ steps, step.Apt types table)
    (checked : pattern.demandsValue = true → types.canBeNull pattern.input = true →
      Step.Checked table steps temp) :
    ((fragment.bind name temp).after steps).Suits types table
      (binders ++ name.toList.map (·, pattern)) where
  apt := (suits.after apt).apt
  bound := by
    refine List.rel_append (suits.after apt).bound ?_
    cases name with
    | none => exact .nil
    | some name =>
        exact .cons ⟨rfl, fun demands nullable => (checked demands nullable).imp_left fun tested =>
          List.mem_append_left _ tested⟩ .nil

end Fragment.Suits

end Steps

/-! ## From the patterns -/

namespace Pattern

variable {types : TypeOracle} {owner : Option Nat} {table : AccessTable} {steps : List Step}
  {input temp : Temp} {step : Step} {kind : AccessKind} {type : Ty}

theorem Reads.isCast_iff (reads : Reads table input kind type step temp) :
    table.IsCast temp ↔ ∃ target, kind = .cast target := by
  obtain ⟨made, _, known, found⟩ := reads
  exact AccessTable.isCast_iff_of_output known (AccessTable.mem_outputsOf.mpr ⟨_, found, rfl⟩)

theorem Reads.typeOf (reads : Reads table input kind type step temp) : table.typeOf temp = type := by
  obtain ⟨_, _, _, found⟩ := reads
  exact AccessTable.typeOf_of_temp? found

theorem Reads.apt (reads : Reads table input kind type step temp) : step.Apt types table := by
  obtain ⟨made, rfl, _⟩ := reads
  exact Step.apt_access made

theorem apt_nullCheck (types : TypeOracle) (table : AccessTable) (input : Temp) :
    ∀ step ∈ nullCheck types table input, step.Apt types table := by
  unfold nullCheck
  intro step member
  split at member
  · rw [List.mem_singleton.mp member]
    exact Step.apt_nonNull input
  · exact absurd member List.not_mem_nil

theorem checked_nullCheck (nullable : types.canBeNull (table.typeOf input) = true) :
    Step.Checked table (nullCheck types table input) input := by
  unfold nullCheck
  rw [if_pos nullable]
  exact Or.inl (List.mem_singleton_self _)

theorem Converts.apt {strict : Bool} {target : Ty}
    (converts : Converts types strict target table input steps temp) :
    ∀ step ∈ steps, step.Apt types table := by
  unfold Converts at converts
  split at converts
  · obtain ⟨rfl, _⟩ := converts
    split
    · exact apt_nullCheck types table input
    · exact fun _ member => absurd member List.not_mem_nil
  · rename_i tested
    obtain ⟨cast, reads, rfl⟩ := converts
    intro step member
    rcases List.mem_append.mp member with check | behind
    · exact apt_nullCheck types table input step check
    · rcases List.mem_cons.mp behind with rfl | last
      · exact Step.apt_ofType tested
      · rw [List.mem_singleton.mp last]
        exact reads.apt
  · obtain ⟨cast, reads, rfl⟩ := converts
    intro step member
    rcases List.mem_cons.mp member with rfl | last
    · exact Step.apt_never input
    · rw [List.mem_singleton.mp last]
      exact reads.apt

/-- A conversion that null is not to pass leads to a value that was tested, or to
what a cast yields. -/
theorem Converts.checked {target : Ty}
    (converts : Converts types true target table input steps temp)
    (nullable : types.canBeNull (table.typeOf input) = true) : Step.Checked table steps temp := by
  unfold Converts at converts
  split at converts
  · obtain ⟨rfl, rfl⟩ := converts
    exact checked_nullCheck nullable
  · obtain ⟨_, reads, _⟩ := converts
    exact Or.inr (reads.isCast_iff.mpr ⟨target, rfl⟩)
  · obtain ⟨_, reads, _⟩ := converts
    exact Or.inr (reads.isCast_iff.mpr ⟨target, rfl⟩)

theorem Enters.apt {declared : Option Ty} (enters : Enters types declared table input steps temp) :
    ∀ step ∈ steps, step.Apt types table := by
  cases declared with
  | none =>
      obtain ⟨rfl, _⟩ := enters
      exact apt_nullCheck types table input
  | some type => exact Converts.apt enters

theorem Enters.checked {declared : Option Ty}
    (enters : Enters types declared table input steps temp)
    (nullable : types.canBeNull (table.typeOf input) = true) : Step.Checked table steps temp := by
  cases declared with
  | none =>
      obtain ⟨rfl, rfl⟩ := enters
      exact checked_nullCheck nullable
  | some type => exact Converts.checked enters nullable

mutual

theorem lays_suits (types : TypeOracle) (owner : Option Nat) (table : AccessTable) :
    ∀ (pattern : Pattern) {input : Temp} {fragment : Fragment},
      ¬ table.IsCast input → table.typeOf input = pattern.input →
      Lays types owner table pattern input fragment →
      fragment.Suits types table pattern.binders
  | .discard _, input, fragment, examined, atType, lays => by
      simp only [Lays] at lays
      rw [lays, binders]
      exact .empty
  | .var type name, input, fragment, examined, atType, lays => by
      simp only [Lays] at lays
      have bound : ((Fragment.empty.bind (some name) input).after []).Suits types table
          ([] ++ (some name).toList.map (·, .var type name)) :=
        Fragment.Suits.empty.bindAfter (by simp) nofun
      rw [lays, binders]
      exact bound
  | .typed _ declared name, input, fragment, examined, atType, lays => by
      simp only [Lays] at lays
      obtain ⟨steps, temp, converts, rfl⟩ := lays
      rw [binders]
      exact Fragment.Suits.empty.bindAfter converts.apt fun _ nullable =>
        converts.checked (atType ▸ nullable)
  | .constant _ value type, input, fragment, examined, atType, lays => by
      simp only [Lays] at lays
      rw [binders]
      split at lays
      · rw [lays]
        refine ⟨fun step member => ?_, .nil⟩
        rw [List.mem_singleton.mp member]
        exact Step.apt_isNull examined
      · rename_i valued
        obtain ⟨steps, temp, converts, rfl⟩ := lays
        refine ⟨fun step member => ?_, .nil⟩
        rcases List.mem_append.mp member with first | last
        · exact converts.apt step first
        · rw [List.mem_singleton.mp last]
          exact Step.apt_equals (by simpa using valued) temp
  | .compound _ declared none members name, input, fragment, examined, atType, lays => by
      simp only [Lays] at lays
      obtain ⟨steps, temp, inner, enters, inside, rfl⟩ := lays
      rw [binders]
      exact (laysMembers_suits types owner table members inside).bindAfter enters.apt
        fun _ nullable => enters.checked (atType ▸ nullable)
  | .compound _ declared (some (.method method, parts)) members name, input, fragment, examined,
      atType, lays => by
      simp only [Lays] at lays
      obtain ⟨steps, temp, call, outer, inner, enters, known, outside, inside, rfl⟩ := lays
      rw [binders]
      have outputs := laysOutputs_suits types owner table parts known (by simp) outside
      have calls : (outer.after [.access call]).Suits types table (partBinders parts) :=
        outputs.after fun step member => by
          rw [List.mem_singleton.mp member]
          exact Step.apt_access call
      exact (calls.append (laysMembers_suits types owner table members inside)).bindAfter enters.apt
        fun _ nullable => enters.checked (atType ▸ nullable)
  | .compound _ declared (some (.tuple, parts)) members name, input, fragment, examined, atType,
      lays => by
      simp only [Lays] at lays
      obtain ⟨steps, temp, outer, inner, enters, outside, inside, rfl⟩ := lays
      rw [binders]
      have reads := laysReads_suits types owner table parts (by simp) outside
      exact (reads.append (laysMembers_suits types owner table members inside)).bindAfter enters.apt
        fun _ nullable => enters.checked (atType ▸ nullable)
  | .compound _ declared (some (.indexed length lengthType, parts)) members name, input, fragment,
      examined, atType, lays => by
      simp only [Lays] at lays
      obtain ⟨steps, temp, readLength, count, outer, inner, enters, measures, outside, inside, rfl⟩ :=
        lays
      rw [binders]
      have reads := laysReads_suits types owner table parts (by simp) outside
      have measured : (outer.after [readLength, .test ⟨count, .equals (.int parts.length)⟩]).Suits
          types table (partBinders parts) := reads.after fun step member => by
        rcases List.mem_cons.mp member with rfl | last
        · exact measures.apt
        · rw [List.mem_singleton.mp last]
          exact Step.apt_equals rfl count
      exact (measured.append (laysMembers_suits types owner table members inside)).bindAfter
        enters.apt fun _ nullable => enters.checked (atType ▸ nullable)

theorem laysOutputs_suits (types : TypeOracle) (owner : Option Nat) (table : AccessTable) :
    ∀ (parts : List Pattern) {call : Access} {entry : AccessEntry} {position : Nat}
      {fragment : Fragment}, table.access? call = some entry →
      (∀ target, entry.kind ≠ .cast target) →
      LaysOutputs types owner table call parts position fragment →
      fragment.Suits types table (partBinders parts)
  | [], call, entry, position, fragment, known, notCast, lays => by
      simp only [LaysOutputs] at lays
      rw [lays, partBinders]
      exact .empty
  | part :: parts, call, entry, position, fragment, known, notCast, lays => by
      simp only [LaysOutputs] at lays
      obtain ⟨temp, head, tail, found, first, later, rfl⟩ := lays
      rw [partBinders]
      have isOutput : temp ∈ table.outputsOf call := AccessTable.mem_outputsOf.mpr ⟨_, found, rfl⟩
      have examined : ¬ table.IsCast temp := fun isCast =>
        ((AccessTable.isCast_iff_of_output known isOutput).mp isCast).elim notCast
      exact (lays_suits types owner table part examined (AccessTable.typeOf_of_temp? found)
        first).append (laysOutputs_suits types owner table parts known notCast later)

theorem laysReads_suits (types : TypeOracle) (owner : Option Nat) (table : AccessTable) :
    ∀ (parts : List Pattern) {kind : Nat → AccessKind} {position : Nat} {input : Temp}
      {fragment : Fragment}, (∀ position target, kind position ≠ .cast target) →
      LaysReads types owner table kind parts position input fragment →
      fragment.Suits types table (partBinders parts)
  | [], kind, position, input, fragment, notCast, lays => by
      simp only [LaysReads] at lays
      rw [lays, partBinders]
      exact .empty
  | part :: parts, kind, position, input, fragment, notCast, lays => by
      simp only [LaysReads] at lays
      obtain ⟨step, temp, head, tail, reads, first, later, rfl⟩ := lays
      rw [partBinders]
      have examined : ¬ table.IsCast temp := fun isCast =>
        (reads.isCast_iff.mp isCast).elim (notCast position)
      refine .after ?_ ((lays_suits types owner table part examined reads.typeOf first).append
        (laysReads_suits types owner table parts notCast later))
      intro other member
      rw [List.mem_singleton.mp member]
      exact reads.apt

theorem laysMembers_suits (types : TypeOracle) (owner : Option Nat) (table : AccessTable) :
    ∀ (members : List (Member × Pattern)) {input : Temp} {fragment : Fragment},
      LaysMembers types owner table members input fragment →
      fragment.Suits types table (memberBinders members)
  | [], input, fragment, lays => by
      simp only [LaysMembers] at lays
      rw [lays, memberBinders]
      exact .empty
  | (member, pattern) :: members, input, fragment, lays => by
      simp only [LaysMembers] at lays
      obtain ⟨step, temp, head, tail, reads, first, later, rfl⟩ := lays
      rw [memberBinders]
      have examined : ¬ table.IsCast temp := fun isCast =>
        (reads.isCast_iff.mp isCast).elim (ofMember_ne_cast member)
      refine .after ?_ ((lays_suits types owner table pattern examined reads.typeOf first).append
        (laysMembers_suits types owner table members later))
      intro other inStep
      rw [List.mem_singleton.mp inStep]
      exact reads.apt

end

end Pattern

/-- The checklist of an arm asks apt questions, and it binds the variables of the
arm's pattern in their order. -/
theorem Arm.LaidOut.suits {types : TypeOracle} {table : AccessTable} {arm : Arm}
    {checklist : Checklist} (laidOut : arm.LaidOut types table checklist) (rooted : table.Rooted) :
    Fragment.Suits types table arm.pattern.binders ⟨checklist.steps, checklist.bindings⟩ := by
  obtain ⟨owner, lays⟩ := laidOut.lays
  exact Pattern.lays_suits types owner table arm.pattern (AccessTable.not_isCast_root rooted)
    laidOut.input lays

theorem Arm.LaidOut.map_name_bindings {types : TypeOracle} {table : AccessTable} {arm : Arm}
    {checklist : Checklist} (laidOut : arm.LaidOut types table checklist) (rooted : table.Rooted) :
    checklist.bindings.map Binding.name = arm.pattern.boundNames := by
  rw [← Pattern.map_fst_binders]
  exact map_eq_of_forall₂ (laidOut.suits rooted).bound fun _ _ bound => bound.name

/-- A graph of arms carries out their checklists, which ask and bind what the
patterns of the arms say. -/
structure DecisionGraph.BuiltForArms (graph : DecisionGraph) (problem : MergeProblem)
    (arms : List Arm) : Prop extends graph.BuiltFrom problem where
  counted : graph.armCount = problem.checklists.size
  suits : ∀ own : Fin problem.checklists.size, ∃ arm, arms[own.val]? = some arm ∧
    Fragment.Suits problem.types problem.table arm.pattern.binders
      ⟨(problem.checklist own).steps, (problem.checklist own).bindings⟩

theorem DecisionGraph.exists_builtForArms {types : TypeOracle} {options : Options} {input : Ty}
    {arms : List Arm} {graph : DecisionGraph}
    (built : DecisionGraph.ofArms types options input arms = .ok graph) :
    ∃ problem : MergeProblem, problem.types = types ∧ graph.BuiltForArms problem arms := by
  obtain ⟨problem, rfl, builtFrom, counted, listed⟩ := DecisionGraph.exists_laidOut built
  refine ⟨problem, rfl, builtFrom, counted, fun own => ?_⟩
  obtain ⟨arm, isArm, laidOut⟩ := listed own
  exact ⟨arm, isArm, laidOut.suits builtFrom.lawful.rooted⟩

theorem DecisionGraph.BuiltForArms.inside {graph : DecisionGraph} {problem : MergeProblem}
    {arms : List Arm} (builtFor : graph.BuiltForArms problem arms)
    (own : Fin problem.checklists.size) : own.val < graph.armCount := by
  rw [builtFor.counted]
  exact own.isLt

theorem DecisionGraph.BuiltForArms.apt {graph : DecisionGraph} {problem : MergeProblem}
    {arms : List Arm} (builtFor : graph.BuiltForArms problem arms) :
    ∀ own, ∀ step ∈ (problem.checklist own).steps, step.Apt problem.types problem.table := by
  intro own
  obtain ⟨_, _, suits⟩ := builtFor.suits own
  exact suits.apt

end MatchCompiler
