import MatchCompiler.Proofs.Compile
import MatchCompiler.Proofs.Flow.Propagation
import MatchCompiler.Proofs.Residual.Course

/-!
# What is known is true

Facts at the nodes of a compiled switch are true of every walk that comes there,
and what is known about the variables of an arm is true of the values that it
binds.
-/

set_option autoImplicit false

namespace MatchCompiler

namespace DecisionGraph

variable {graph : DecisionGraph} {problem : MergeProblem} {typing : Typing} {oracle : GuardOracle}
  {input : Value} {id : NodeId} {progress : Progress}

theorem bindings_of_reaches
    (represents : problem.Represents graph.nodes graph.root problem.start)
    (reaches : graph.Reaches graph.root id) {arm : Nat} {label : Label} {bindings : List Binding}
    {guard : Option Guard} {accepted : NodeId} {rejected : Option NodeId}
    (found : graph.node? id = some (.bind arm label bindings guard accepted rejected)) :
    ∃ own : Fin problem.checklists.size, arm = own ∧
      bindings = (problem.checklist own).bindings := by
  rcases represents_or_leaf represents reaches with ⟨state, here⟩ | ⟨_, _, leaf⟩
  · cases here with
    | bind stored _ _ | guard stored _ _ _ =>
        cases found.symm.trans stored
        exact ⟨_, rfl, rfl⟩
    | fail stored | take stored _ _ | access stored _ _ | test stored _ _ _ =>
        cases found.symm.trans stored
  · cases found.symm.trans leaf

variable {types : TypeOracle} {options : Options} {type : Ty} {arms : List Arm} {table : AccessTable}
  {flow : Flow}

theorem exists_problem_of_ofArms (built : ofArms types options type arms = .ok graph) :
    ∃ problem : MergeProblem, problem.types = types ∧ graph.table = problem.table ∧
      problem.table.Lawful ∧ graph.Acyclic ∧
      problem.Represents graph.nodes graph.root problem.start ∧
      ∀ arm, Step.Throughout (Step.CastGuarded problem.table) [] (problem.checklist arm).steps := by
  obtain ⟨problem, sameTypes, builtFrom⟩ := exists_builtFrom built
  refine ⟨problem, sameTypes, builtFrom.sameTable, builtFrom.lawful,
    acyclic_of_descending builtFrom.descending, builtFrom.represents, ?_⟩
  intro index front step back split
  exact ((builtFrom.sequenced index).steps front step back split).guarded

theorem mem_variablesOf {arm : Nat} {entry : VariableFact} (member : entry ∈ flow.variablesOf arm) :
    ∃ entries, flow.bound[arm]? = some (some entries) ∧ entry ∈ entries := by
  unfold Flow.variablesOf at member
  cases recorded : flow.bound[arm]?.join with
  | none => simp [recorded] at member
  | some entries => exact ⟨entries, Option.join_eq_some_iff.mp recorded, by simpa [recorded] using member⟩

theorem Propagated.variablesOf
    (propagated : graph.Propagated typing oracle input graph.topologicalOrder flow)
    (visited : graph.Visits typing oracle input id progress) {arm : Nat} {label : Label}
    {bindings : List Binding} {guard : Option Guard} {accepted : NodeId} {rejected : Option NodeId}
    (found : graph.node? id = some (.bind arm label bindings guard accepted rejected)) :
    ∀ entry ∈ flow.variablesOf arm, entry.HoldsAt typing bindings progress.slots := by
  intro entry member
  obtain ⟨entries, recorded, inEntries⟩ := mem_variablesOf member
  have inOrder : id ∈ graph.topologicalOrder :=
    (graph.mem_topologicalOrder id).mpr ⟨visited.reaches, node?_inside found⟩
  obtain ⟨_, isEntries, holdAt⟩ := propagated.recorded inOrder visited found _ recorded
  obtain rfl := Option.some.inj isEntries
  exact holdAt entry inEntries

theorem Propagated.variablesOf_eq_nil
    (propagated : graph.Propagated typing oracle input graph.topologicalOrder flow)
    (represents : problem.Represents graph.nodes graph.root problem.start)
    {arm : Fin problem.checklists.size} (unbound : (problem.checklist arm).bindings = []) :
    flow.variablesOf arm = [] := by
  refine List.eq_nil_iff_forall_not_mem.mpr fun entry member => ?_
  obtain ⟨entries, recorded, inEntries⟩ := mem_variablesOf member
  obtain ⟨binder, inOrder, _, bindings, _, _, _, found, bound⟩ := propagated.bound recorded
  have reaches := ((graph.mem_topologicalOrder binder).mp inOrder).1
  obtain ⟨own, sameArm, rfl⟩ := bindings_of_reaches represents reaches found
  obtain rfl := Fin.ext sameArm
  rw [unbound] at bound
  exact absurd (bound entry inEntries) List.not_mem_nil

/-- The flow of a graph of arms tells the truth about every walk: what is known
at a node is true of the slots of a walk that comes there, and what is known
about the variables of an arm is true where the arm binds them, and of the
variables that a match ends with. -/
theorem flow_sound (built : ofArms types options type arms = .ok graph)
    (sound : types.SoundFor typing) (conforms : graph.Conforms types typing oracle input)
    (booleans : graph.ComparesBooleans types typing oracle input) :
    (∀ id progress, graph.Visits typing oracle input id progress →
      ∃ facts, (graph.flow types).stateAt? id = some facts ∧
        ∀ temp fact, facts.get? temp = some fact →
          ∃ value, progress.slots.get? temp = some value ∧ fact.Holds typing value) ∧
    (∀ id progress arm label bindings guard accepted rejected,
      graph.Visits typing oracle input id progress →
      graph.node? id = some (.bind arm label bindings guard accepted rejected) →
      ∀ entry ∈ (graph.flow types).variablesOf arm,
        entry.HoldsAt typing bindings progress.slots) ∧
    ∀ arm label bindings,
      (graph.walk typing oracle input).result = .ok (.matched arm label bindings) →
      ∀ entry ∈ (graph.flow types).variablesOf arm,
        ∃ value, (entry.name, value) ∈ bindings ∧ entry.fact.Holds typing value := by
  obtain ⟨problem, rfl, sameTable, lawful, acyclic, represents, guarded⟩ :=
    exists_problem_of_ofArms built
  have tracked : ∀ {id progress}, graph.Visits typing oracle input id progress →
      graph.InStep problem typing input id progress ∨
        graph.Binds problem typing oracle input id progress :=
    fun visited => inStep_or_binds sameTable lawful.rooted sound represents
      (fun visited _ found filled => sameTable ▸ booleans visited found filled) visited
  have propagated := propagated_flow acyclic (sameTable ▸ lawful)
    fun visited => visited.typed (sameTable ▸ lawful) sameTable guarded tracked conforms
  refine ⟨fun id progress visited => propagated.trueAt visited ?_, ?_, ?_⟩
  · rcases tracked visited with ⟨_, here, _⟩ | ⟨_, _, _, _, _, _, _, leaf, _⟩
    · exact here.inside
    · exact node?_inside leaf
  · intro id progress arm label bindings guard accepted rejected visited found
    exact propagated.variablesOf visited found
  · intro arm label bindings matched entry member
    obtain ⟨leaf, final, visited, found, rfl⟩ := exists_of_matched _ .root matched
    rcases tracked visited with
      ⟨_, here, _⟩ | ⟨own, _, _, _, _, binderVisited, binderFound, leafFound, _, captured⟩
    · cases here with
      | take stored _ unbound =>
          cases found.symm.trans stored
          rw [propagated.variablesOf_eq_nil represents unbound] at member
          exact absurd member List.not_mem_nil
      | fail stored | bind stored _ _ | guard stored _ _ _ | access stored _ _
      | test stored _ _ _ => cases found.symm.trans stored
    · cases found.symm.trans leafFound
      obtain ⟨bound, value, filled, holds⟩ :=
        propagated.variablesOf binderVisited binderFound entry member
      exact ⟨value, Slots.mem_of_capture captured bound filled, holds⟩

/-- A point, with a name for its member and one for itself. -/
def namedPoint : List Arm :=
  [⟨.compound Hierarchy.object (some ⟨2⟩) none [(.field ⟨1⟩, .var ⟨3⟩ ⟨2⟩)] (some ⟨3⟩), none, ⟨0⟩⟩]

def namedPointGraph : DecisionGraph where
  nodes := #[.success 0 ⟨0⟩, .bind 0 ⟨0⟩ [⟨⟨2⟩, ⟨2⟩⟩, ⟨⟨3⟩, ⟨1⟩⟩] none ⟨0⟩ none, .access ⟨1⟩ ⟨1⟩,
    .access ⟨0⟩ ⟨2⟩, .failure, .test ⟨.root, .ofType ⟨2⟩⟩ ⟨3⟩ ⟨4⟩, .test ⟨.root, .nonNull⟩ ⟨5⟩ ⟨4⟩]
  root := ⟨6⟩
  table := ⟨[⟨⟨0⟩, none, 0⟩, ⟨⟨2⟩, some ⟨0⟩, 0⟩, ⟨⟨3⟩, some ⟨1⟩, 0⟩],
    [⟨.root, .cast ⟨2⟩⟩, ⟨⟨1⟩, .field ⟨1⟩⟩]⟩
  armCount := 1

def pointWithMember : Value := .object ⟨2⟩ [(⟨1⟩, .int 4)] [] []

theorem conforms_namedPointGraph (oracle : GuardOracle) :
    namedPointGraph.Conforms shapes.oracle (shapes.typing { int := some ⟨3⟩ }) oracle
      pointWithMember := by
  have rooted : namedPointGraph.table.Rooted := ⟨_, rfl, rfl⟩
  have casted : namedPointGraph.table.Yields pointWithMember ⟨1⟩ pointWithMember :=
    .output rfl rfl rfl .root rfl rfl
  have member : namedPointGraph.table.Yields pointWithMember ⟨2⟩ (.int 4) :=
    .output rfl rfl rfl casted rfl rfl
  intro id progress temp value visited filled notCast
  have yields := (visited.sound rooted).yields temp value filled
  have inside : temp.index < 3 := by
    cases yields with
    | root => decide
    | output found _ _ _ _ _ => exact AccessTable.temp?_inside found
  obtain ⟨index⟩ := temp
  have cases : index = 0 ∨ index = 1 ∨ index = 2 := by
    dsimp only at inside
    omega
  rcases cases with rfl | rfl | rfl
  · obtain rfl := AccessTable.Yields.root.unique rooted yields
    exact ⟨fun isNull => absurd isNull Bool.false_ne_true, fun _ => by cbv⟩
  · exact absurd ⟨_, _, _, _, rfl, rfl, rfl, rfl⟩ notCast
  · obtain rfl := member.unique rooted yields
    exact ⟨fun isNull => absurd isNull Bool.false_ne_true, fun _ => by cbv⟩

theorem comparesBooleans_namedPointGraph (oracle : GuardOracle) :
    namedPointGraph.ComparesBooleans shapes.oracle (shapes.typing { int := some ⟨3⟩ }) oracle
      pointWithMember := by
  intro id onTrue onFalse progress asked value _ found _ _ b isEquals
  have member := Array.mem_of_getElem? found
  simp [namedPointGraph] at member
  rcases member with ⟨rfl, _⟩ | ⟨rfl, _⟩ <;> contradiction

theorem variablesOf_namedPoint :
    (namedPointGraph.flow shapes.oracle).variablesOf 0 =
      [⟨⟨2⟩, ⟨2⟩, ⟨.notNull, ⟨3⟩⟩⟩, ⟨⟨3⟩, ⟨1⟩, ⟨.notNull, ⟨2⟩⟩⟩] := by
  cbv

theorem flow_sound_namedPoint :
    ∃ value, ((⟨3⟩ : Symbol), value) ∈ [(⟨2⟩, Value.int 4), (⟨3⟩, pointWithMember)] ∧
      Fact.Holds (shapes.typing { int := some ⟨3⟩ }) ⟨.notNull, ⟨2⟩⟩ value := by
  have built : ofArms shapes.oracle {} Hierarchy.object namedPoint = .ok namedPointGraph := by
    cbv
  have sound := flow_sound built (wellFormed_shapes.sound _)
    (conforms_namedPointGraph fun _ _ => .ok true) (comparesBooleans_namedPointGraph _)
  exact sound.2.2 0 ⟨0⟩ _ (by cbv) ⟨⟨3⟩, ⟨1⟩, ⟨.notNull, ⟨2⟩⟩⟩
    (by rw [variablesOf_namedPoint]; exact List.mem_cons_of_mem _ List.mem_cons_self)

end DecisionGraph

end MatchCompiler
