import Mathlib
import MatchCompiler.Proofs.Flow.Merge
import MatchCompiler.Proofs.Flow.Soundness

/-!
# Variables over all ways

An arm can bind its variables at several nodes. Wherever it does, it binds the
same ones, and their slots are filled by then on every path. So what is recorded
about an arm has one entry for each of its bindings, in their order, and the
entry says what all ways to those nodes agree on.
-/

set_option autoImplicit false

namespace MatchCompiler

theorem filterMap_of_forall₂ {α β γ : Type} {related : α → β → Prop} {after : α → γ → Prop}
    {change : β → Option γ} {inputs : List α} {outputs : List β}
    (pairs : List.Forall₂ related inputs outputs)
    (changes : ∀ input ∈ inputs, ∀ output, related input output →
      ∃ result, change output = some result ∧ after input result) :
    List.Forall₂ after inputs (outputs.filterMap change) := by
  induction pairs with
  | nil => exact .nil
  | cons holds _ ih =>
      obtain ⟨result, isResult, relates⟩ := changes _ List.mem_cons_self _ holds
      rw [List.filterMap_cons_some isResult]
      exact .cons relates (ih fun input member => changes input (List.mem_cons_of_mem _ member))

theorem comp_of_forall₂ {α β γ : Type} {front : α → β → Prop} {back : β → γ → Prop}
    {through : α → γ → Prop} {inputs : List α} {middle : List β} {outputs : List γ}
    (first : List.Forall₂ front inputs middle) (second : List.Forall₂ back middle outputs)
    (composes : ∀ input between output, front input between → back between output →
      through input output) : List.Forall₂ through inputs outputs := by
  induction first generalizing outputs with
  | nil =>
      cases second
      exact .nil
  | cons holds _ ih =>
      cases second with
      | cons alsoHolds rest => exact .cons (composes _ _ _ holds alsoHolds) (ih rest)

namespace VariableFact

/-- An entry about a binding, with what all ways agree on about its temp. -/
structure Joins (table : AccessTable) (ways : Set Facts) (binding : Binding)
    (entry : VariableFact) : Prop where
  name : entry.name = binding.name
  temp : entry.temp = binding.temp
  fact : Fact.IsJoin (table.typeOf binding.temp) (Facts.known ways binding.temp) entry.fact

/-- What is recorded about bindings is what some ways agree on; without a way,
nothing is recorded. -/
def Merges (table : AccessTable) (bindings : List Binding) (ways : Set Facts) :
    Option (List VariableFact) → Prop
  | none => ways = ∅
  | some entries => ways.Nonempty ∧ List.Forall₂ (Joins table ways) bindings entries

variable {table : AccessTable} {bindings : List Binding} {ways more : Set Facts} {facts : Facts}
  {entries others : List VariableFact}

theorem joins_ofBindings (isJoin : facts.IsJoin table ways)
    (filled : ∀ binding ∈ bindings, ∀ way ∈ ways, way.get? binding.temp ≠ none) :
    List.Forall₂ (Joins table ways) bindings (ofBindings facts bindings) := by
  refine filterMap_of_forall₂ (List.forall₂_same.mpr fun _ _ => rfl) ?_
  rintro binding member _ rfl
  have known : facts.get? binding.temp ≠ none := by
    rw [ne_eq, isJoin.absent]
    rintro ⟨way, inWays, absent⟩
    exact filled binding member way inWays absent
  obtain ⟨fact, isFact⟩ := Option.ne_none_iff_exists'.mp known
  exact ⟨⟨binding.name, binding.temp, fact⟩, by rw [isFact]; rfl,
    ⟨rfl, rfl, isJoin.present binding.temp fact isFact⟩⟩

/-- Entries about the same bindings are joined one by one, even where a name is
bound twice to one temp. -/
theorem joins_joinAll (mine : List.Forall₂ (Joins table ways) bindings entries)
    (yours : List.Forall₂ (Joins table more) bindings others) :
    List.Forall₂ (Joins table (ways ∪ more)) bindings (joinAll table entries others) := by
  refine filterMap_of_forall₂ mine ?_
  intro binding member entry joins
  -- the partner that is found may belong to another binding, with the same name and temp
  have someFound : (others.find? fun other =>
      other.temp == entry.temp && other.name == entry.name).isSome := by
    obtain ⟨other, inOthers, alsoJoins⟩ := exists_mem_of_forall₂ yours member
    refine List.find?_isSome.mpr ⟨other, inOthers, ?_⟩
    simp [joins.name, joins.temp, alsoJoins.name, alsoJoins.temp]
  obtain ⟨other, found⟩ := Option.isSome_iff_exists.mp someFound
  have same := List.find?_some found
  simp only [Bool.and_eq_true, beq_iff_eq] at same
  obtain ⟨owner, _, alsoJoins⟩ := exists_of_mem_forall₂ yours (List.mem_of_find?_eq_some found)
  have sameTemp : owner.temp = binding.temp := by
    rw [← alsoJoins.temp, same.1, joins.temp]
  refine ⟨{ entry with fact := entry.fact.join (table.typeOf entry.temp) other.fact },
    by rw [found]; rfl, ⟨joins.name, joins.temp, ?_⟩⟩
  rw [Facts.known_union, joins.temp]
  exact joins.fact.join (sameTemp ▸ alsoJoins.fact)

end VariableFact

namespace Flow

variable {table : AccessTable} {flow : Flow} {facts : Facts} {ways more : Set Facts} {arm : Nat}
  {bindings : List Binding}

theorem merges_record {label : Label} {guard : Option Guard} {accepted : NodeId}
    {rejected : Option NodeId} (inside : arm < flow.bound.size)
    (merges : VariableFact.Merges table bindings ways (flow.bound[arm]?.join))
    (isJoin : facts.IsJoin table more)
    (filled : ∀ binding ∈ bindings, ∀ way ∈ more, way.get? binding.temp ≠ none) :
    VariableFact.Merges table bindings (ways ∪ more)
      ((flow.record table facts
        (.bind arm label bindings guard accepted rejected)).bound[arm]?.join) := by
  have here := VariableFact.joins_ofBindings isJoin filled
  unfold record
  dsimp only
  rw [Array.getElem?_modify, if_pos rfl]
  rw [Array.getElem?_eq_getElem inside] at merges ⊢
  generalize flow.bound[arm] = recorded at merges ⊢
  cases recorded with
  | none =>
      obtain rfl : ways = ∅ := merges
      rw [Set.empty_union]
      exact ⟨isJoin.inhabited, here⟩
  | some entries => exact ⟨merges.1.inl, VariableFact.joins_joinAll merges.2 here⟩

theorem bound_record_of_ne {node : Node}
    (others : ∀ label bindings guard accepted rejected,
      node ≠ .bind arm label bindings guard accepted rejected) :
    (flow.record table facts node).bound[arm]? = flow.bound[arm]? := by
  cases node with
  | bind other label bindings guard accepted rejected =>
      have apart : other ≠ arm := by
        rintro rfl
        exact others label bindings guard accepted rejected rfl
      unfold record
      dsimp only
      rw [Array.getElem?_modify, if_neg apart]
  | access | test | success | failure => rfl

@[simp] theorem size_bound_record (table : AccessTable) (facts : Facts) (flow : Flow) (node : Node) :
    (flow.record table facts node).bound.size = flow.bound.size := by
  cases node <;> simp [record]

end Flow

namespace DecisionGraph

variable {graph : DecisionGraph} {problem : MergeProblem} {types : TypeOracle} {flow : Flow}
  {front back : List NodeId} {id : NodeId} {node : Node} {arm : Nat} {turns : List Turn}
  {bindings : List Binding}

def BindsArm (graph : DecisionGraph) (arm : Nat) (id : NodeId) : Prop :=
  ∃ label bindings guard accepted rejected,
    graph.node? id = some (.bind arm label bindings guard accepted rejected)

theorem BindsArm.inside (binds : graph.BindsArm arm id) : id.index < graph.size := by
  obtain ⟨_, _, _, _, _, found⟩ := binds
  exact node?_inside found

/-- What the ways tell that lead to one of the nodes in `front` where an arm binds
its variables. -/
def boundOver (graph : DecisionGraph) (types : TypeOracle) (front : List NodeId) (arm : Nat) :
    Set Facts :=
  {facts | ∃ id ∈ front, graph.BindsArm arm id ∧ facts ∈ graph.knownTo types id}

def knownAt (graph : DecisionGraph) (types : TypeOracle) (arm : Nat) : Set Facts :=
  {facts | ∃ id, graph.BindsArm arm id ∧ facts ∈ graph.knownTo types id}

theorem boundOver_topologicalOrder (graph : DecisionGraph) (types : TypeOracle) (arm : Nat) :
    graph.boundOver types graph.topologicalOrder arm = graph.knownAt types arm := by
  ext facts
  constructor
  · rintro ⟨id, _, binds, known⟩
    exact ⟨id, binds, known⟩
  · rintro ⟨id, binds, turns, way, isFacts⟩
    exact ⟨id, (graph.mem_topologicalOrder id).mpr ⟨way.path.reaches, binds.inside⟩, binds,
      turns, way, isFacts⟩

theorem boundOver_append : graph.boundOver types (front ++ [id]) arm =
    graph.boundOver types front arm ∪
        {facts | graph.BindsArm arm id ∧ facts ∈ graph.knownTo types id} := by
  ext facts
  simp [boundOver, or_and_right, exists_or]

theorem BuiltFrom.all_done (builtFrom : graph.BuiltFrom problem)
    {own : Fin problem.checklists.size} (binds : graph.BindsArm own id)
    (path : graph.Path graph.root turns id) : ∀ step ∈ (problem.checklist own).steps,
      ∃ turn ∈ turns, turn.settles problem step = some true := by
  intro step member
  obtain ⟨_, _, _, _, _, found⟩ := binds
  obtain ⟨front, back, arm, others, rfl, isState, sameArm⟩ :=
    path.exists_of_arm? builtFrom.represents found rfl
  obtain rfl := Fin.ext sameArm
  have first : (⟨arm, []⟩ : Pending problem.checklists.size) ∈
      problem.start.along problem front := by
    rw [isState]
    exact List.mem_cons_self
  obtain ⟨turn, inFront, settled⟩ := (Residual.leftOf_along first).all_done step member
  exact ⟨turn, List.mem_append_left _ inFront, settled⟩

theorem BuiltFrom.bindings_filled (builtFrom : graph.BuiltFrom problem)
    {own : Fin problem.checklists.size} (binds : graph.BindsArm own id)
    (path : graph.Path graph.root turns id) : ∀ binding ∈ (problem.checklist own).bindings,
      (Facts.along types graph.table turns).get? binding.temp ≠ none := by
  intro binding member
  rw [builtFrom.sameTable, ← Option.isSome_iff_ne_none]
  rcases (builtFrom.sequenced own).bound binding member with isRoot | ⟨made, inSteps, known, isOutput⟩
  · rw [isRoot]
    exact Facts.isSome_along_root builtFrom.lawful.rooted _
  · obtain ⟨turn, inTurns, settled⟩ := builtFrom.all_done binds path _ inSteps
    rw [Turn.eq_of_settles_access settled] at inTurns
    exact Facts.isSome_along inTurns known isOutput

/-- What is recorded about an arm once the nodes in `front` were visited. -/
structure Recorded (graph : DecisionGraph) (types : TypeOracle) (bindings : List Binding) (arm : Nat)
    (front : List NodeId) (flow : Flow) : Prop where
  merged : graph.Merged types front flow
  sized : flow.bound.size = graph.armCount
  merges : VariableFact.Merges graph.table bindings (graph.boundOver types front arm)
    (flow.bound[arm]?.join)

theorem recorded_start (graph : DecisionGraph) (types : TypeOracle) (bindings : List Binding)
    (arm : Nat) : graph.Recorded types bindings arm [] (Flow.start types graph) where
  merged := graph.merged_start types
  sized := by simp [Flow.start]
  merges := by
    have nothing : (Flow.start types graph).bound[arm]?.join = none := by
      by_cases inside : arm < graph.armCount <;> simp [Flow.start, inside]
    rw [nothing]
    simp [VariableFact.Merges, boundOver]

theorem size_bound_visit (types : TypeOracle) (graph : DecisionGraph) (flow : Flow) (id : NodeId) :
    (flow.visit types graph id).bound.size = flow.bound.size := by
  unfold Flow.visit
  split <;> simp

/-- Visiting a node where the arm binds its variables adds what the ways to it
tell, and visiting another one adds nothing. -/
theorem Recorded.visit (builtFrom : graph.BuiltFrom problem) {own : Fin problem.checklists.size}
    (inside : own.val < graph.armCount) (split : graph.topologicalOrder = front ++ id :: back)
    (recorded : graph.Recorded types (problem.checklist own).bindings own front flow) :
    graph.Recorded types (problem.checklist own).bindings own (front ++ [id])
      (flow.visit types graph id) := by
  refine ⟨recorded.merged.visit builtFrom split, ?_, ?_⟩
  · rw [size_bound_visit, recorded.sized]
  have known := recorded.merged.merges_knownTo builtFrom split
  have inOrder : id ∈ graph.topologicalOrder := by simp [split]
  obtain ⟨node, stored⟩ : ∃ node, graph.node? id = some node :=
    ⟨_, Array.getElem?_eq_getElem ((graph.mem_topologicalOrder id).mp inOrder).2⟩
  rw [boundOver_append]
  unfold Flow.visit
  rw [stored]
  cases state : flow.stateAt? id with
  | none =>
      have noWays : graph.knownTo types id = ∅ := by rwa [state] at known
      rw [noWays]
      simpa using recorded.merges
  | some facts =>
      dsimp only
      rw [Flow.bound_foldl_arrive]
      by_cases binds : graph.BindsArm own id
      · rw [state] at known
        have sameWays : {facts | graph.BindsArm own id ∧ facts ∈ graph.knownTo types id} =
            graph.knownTo types id := by
          simp [binds]
        have here := binds
        obtain ⟨label, bindings, guard, accepted, rejected, found⟩ := here
        obtain rfl := Option.some.inj (stored.symm.trans found)
        obtain ⟨_, turns, way, _⟩ := Facts.IsJoin.inhabited known
        obtain ⟨arm, sameArm, rfl⟩ := bindings_of_reaches builtFrom.represents way.path.reaches found
        obtain rfl := Fin.ext sameArm
        rw [sameWays]
        refine Flow.merges_record (recorded.sized ▸ inside) recorded.merges known ?_
        rintro binding member _ ⟨turns, way, rfl⟩
        exact builtFrom.bindings_filled binds way.path binding member
      · have others : ∀ label bindings guard accepted rejected,
            node ≠ .bind own label bindings guard accepted rejected := by
          rintro label bindings guard accepted rejected rfl
          exact binds ⟨label, bindings, guard, accepted, rejected, stored⟩
        rw [Flow.bound_record_of_ne others]
        simpa [binds] using recorded.merges

theorem BuiltFrom.merges_bound (builtFrom : graph.BuiltFrom problem) (types : TypeOracle)
    {own : Fin problem.checklists.size} (inside : own.val < graph.armCount) :
    VariableFact.Merges graph.table (problem.checklist own).bindings (graph.knownAt types own)
      ((graph.flow types).bound[own.val]?.join) := by
  have recorded := flow_induction (graph.recorded_start types (problem.checklist own).bindings own)
    fun split recorded => recorded.visit builtFrom inside split
  rw [← boundOver_topologicalOrder]
  exact recorded.merges

theorem BuiltFrom.joins_variablesOf (builtFrom : graph.BuiltFrom problem) (types : TypeOracle)
    {own : Fin problem.checklists.size} (inside : own.val < graph.armCount)
    (binds : graph.BindsArm own id) (feasible : graph.Feasible id) :
    List.Forall₂ (VariableFact.Joins graph.table (graph.knownAt types own))
      (problem.checklist own).bindings ((graph.flow types).variablesOf own) := by
  have merges := builtFrom.merges_bound types inside
  obtain ⟨turns, way⟩ := feasible_iff.mp feasible
  unfold Flow.variablesOf
  cases recorded : (graph.flow types).bound[own.val]?.join with
  | none =>
      have noWays : graph.knownAt types own = ∅ := by rwa [recorded] at merges
      have isKnown : Facts.along types graph.table turns ∈ graph.knownAt types own :=
        ⟨id, binds, turns, way, rfl⟩
      rw [noWays] at isKnown
      contradiction
  | some entries =>
      rw [recorded] at merges
      exact merges.2

theorem lt_armCount_of_mem_variablesOf {entry : VariableFact}
    (member : entry ∈ (graph.flow types).variablesOf arm) : arm < graph.armCount := by
  have sized : (graph.flow types).bound.size = graph.armCount :=
    @flow_induction graph types (fun _ flow => flow.bound.size = graph.armCount)
      (by simp [Flow.start]) fun _ sized => by rw [size_bound_visit, sized]
  obtain ⟨entries, recorded, _⟩ := mem_variablesOf member
  rw [← sized]
  exact (Array.getElem?_eq_some_iff.mp recorded).1

theorem BuiltFrom.isJoin_of_mem_variablesOf (builtFrom : graph.BuiltFrom problem) (types : TypeOracle)
    {own : Fin problem.checklists.size} (inside : own.val < graph.armCount) {entry : VariableFact}
    (member : entry ∈ (graph.flow types).variablesOf own) :
    ⟨entry.name, entry.temp⟩ ∈ (problem.checklist own).bindings ∧
      Fact.IsJoin (graph.table.typeOf entry.temp) (Facts.known (graph.knownAt types own) entry.temp)
        entry.fact := by
  obtain ⟨entries, recorded, inEntries⟩ := mem_variablesOf member
  have merges := builtFrom.merges_bound types inside
  rw [recorded] at merges
  obtain ⟨binding, inBindings, joins⟩ := exists_of_mem_forall₂ merges.2 inEntries
  rw [joins.name, joins.temp]
  exact ⟨inBindings, joins.fact⟩

end DecisionGraph

end MatchCompiler
