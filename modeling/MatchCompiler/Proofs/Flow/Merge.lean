import Mathlib
import MatchCompiler.Proofs.Compile
import MatchCompiler.Proofs.DecisionGraph.Ways
import MatchCompiler.Proofs.Fact.Join
import MatchCompiler.Proofs.Flow.Propagation
import MatchCompiler.Proofs.Residual.Course

/-!
# Facts are merged over all ways

Facts are joined edge by edge, but what comes in at a node is what all ways to it
agree on: a node is visited after all nodes with an edge into it, and what a turn
does to facts it does to their join. A cast would not, if its input were known on
some ways only; but no path comes to a cast before its input is there.
-/

set_option autoImplicit false

namespace MatchCompiler

def Turn.transfer (types : TypeOracle) (table : AccessTable) : Turn → Facts → Facts
  | .access made, facts => facts.afterAccess types table made
  | .test asked outcome, facts => facts.afterTest asked outcome
  | .bind .., facts => facts

def Facts.along (types : TypeOracle) (table : AccessTable) (turns : List Turn) : Facts :=
  turns.foldl (fun facts turn => turn.transfer types table facts) (.initial types table)

section Along

variable {types : TypeOracle} {table : AccessTable} {facts : Facts} {turn : Turn}
  {turns : List Turn} {temp : Temp} {made : Access}

theorem Facts.along_snoc (turns : List Turn) (turn : Turn) :
    Facts.along types table (turns ++ [turn]) =
      turn.transfer types table (Facts.along types table turns) :=
  List.foldl_append

@[simp] theorem Turn.size_cells_transfer (turn : Turn) (facts : Facts) :
    (turn.transfer types table facts).cells.size = facts.cells.size := by
  cases turn with
  | access made => exact Facts.size_cells_afterAccess ..
  | test asked outcome => exact Facts.size_cells_afterTest ..
  | bind arm accepted => rfl

theorem Facts.size_cells_along (turns : List Turn) :
    (Facts.along types table turns).cells.size = table.temps.length := by
  induction turns using List.reverseRecOn with
  | nil => simp [along, initial, Slots.blank]
  | append_singleton turns turn ih => rw [along_snoc, Turn.size_cells_transfer, ih]

theorem Turn.isSome_transfer (known : (facts.get? temp).isSome) :
    ((turn.transfer types table facts).get? temp).isSome := by
  cases turn with
  | access made =>
      unfold transfer
      cases isEntry : table.access? made with
      | none => simpa [Facts.afterAccess, isEntry] using known
      | some entry =>
          rw [Facts.get?_afterAccess_eq isEntry]
          split
          · rfl
          · exact known
  | test asked outcome =>
      unfold transfer Facts.afterTest
      rw [Slots.get?_update]
      split
      · simpa using known
      · exact known
  | bind arm accepted => exact known

theorem Facts.isSome_along (member : .access made ∈ turns) (known : (table.access? made).isSome)
    (isOutput : temp ∈ table.outputsOf made) :
    ((Facts.along types table turns).get? temp).isSome := by
  induction turns using List.reverseRecOn with
  | nil => exact absurd member List.not_mem_nil
  | append_singleton turns turn ih =>
      rw [along_snoc]
      rcases List.mem_append.mp member with before | last
      · exact Turn.isSome_transfer (ih before)
      · obtain rfl := List.mem_singleton.mp last
        obtain ⟨entry, isEntry⟩ := Option.isSome_iff_exists.mp known
        obtain ⟨declared, isDeclared, _⟩ := AccessTable.mem_outputsOf.mp isOutput
        have inside := AccessTable.temp?_inside isDeclared
        unfold Turn.transfer
        rw [get?_afterAccess_eq isEntry, size_cells_along, if_pos ⟨isOutput, inside⟩]
        rfl

theorem Facts.isSome_along_root (rooted : table.Rooted) (turns : List Turn) :
    ((Facts.along types table turns).get? .root).isSome := by
  induction turns using List.reverseRecOn with
  | nil =>
      obtain ⟨declared, isDeclared, _⟩ := rooted
      have inside := AccessTable.temp?_inside isDeclared
      simp [along, initial, Slots.get?_set, Slots.blank, inside]
  | append_singleton turns turn ih =>
      rw [along_snoc]
      exact Turn.isSome_transfer ih

end Along

/-! ## The inputs of accesses -/

theorem Turn.eq_of_settles_access {problem : MergeProblem} {turn : Turn} {made : Access}
    {answer : Bool} (settled : turn.settles problem (.access made) = some answer) :
    turn = .access made := by
  cases turn with
  | access other =>
      rw [settles] at settled
      split at settled
      · rename_i same
        rw [Step.access.inj same]
      · contradiction
  | test asked outcome => contradiction
  | bind arm accepted => contradiction

/-- Of the steps of an arm, those are left that no turn has found to be done. -/
theorem Residual.leftOf_along {problem : MergeProblem} {turns : List Turn}
    {pending : Pending problem.checklists.size}
    (member : pending ∈ Residual.along problem problem.start turns) :
    Step.LeftOf (fun step => ∃ turn ∈ turns, turn.settles problem step = some true)
      (problem.checklist pending.arm).steps pending.todo := by
  induction turns using List.reverseRecOn generalizing pending with
  | nil =>
      obtain ⟨arm, _, rfl⟩ := List.mem_map.mp member
      exact .all_of_none _
  | append_singleton turns turn ih =>
      unfold Residual.along at ih member
      rw [List.foldl_append] at member
      obtain ⟨before, inState, rfl, _⟩ := Residual.exists_of_mem_onward member
      have left := (ih inState).imp fun step ⟨earlier, inTurns, done⟩ =>
        (⟨earlier, List.mem_append_left _ inTurns, done⟩ :
          ∃ turn' ∈ turns ++ [turn], turn'.settles problem step = some true)
      refine left.filter _ fun step _ dropped => ⟨turn, by simp, ?_⟩
      simpa using dropped

namespace DecisionGraph

variable {graph : DecisionGraph} {problem : MergeProblem} {id target : NodeId} {node : Node}
  {turn : Turn} {turns : List Turn}

/-- What the last node of a path looks at is the match input, or an access on the
path has filled it. -/
theorem BuiltFrom.supplied (builtFrom : graph.BuiltFrom problem)
    (path : graph.Path graph.root turns id) (found : graph.node? id = some node) {step : Step}
    (carriesOut : node.step? = some step) {temp : Temp}
    (operand : step.operand? graph.table = some temp) :
    temp = .root ∨ ∃ made, .access made ∈ turns ∧ (graph.table.access? made).isSome ∧
      temp ∈ graph.table.outputsOf made := by
  rw [builtFrom.sameTable] at operand ⊢
  rcases path.represents builtFrom.represents with here | ⟨_, _, _, _, _, leaf⟩
  · obtain ⟨pending, member, isHead⟩ := waiting_of_represents here found carriesOut
    obtain ⟨front, back, split, done⟩ := (Residual.leftOf_along member).head isHead
    have prepared := (builtFrom.sequenced pending.arm).steps front _ back split
    rcases prepared.supplied temp operand with isRoot | ⟨made, inFront, known, isOutput⟩
    · exact Or.inl isRoot
    · obtain ⟨turn, inTurns, settled⟩ := done _ inFront
      rw [Turn.eq_of_settles_access settled] at inTurns
      exact Or.inr ⟨made, inTurns, known, isOutput⟩
  · obtain rfl := Option.some.inj (found.symm.trans leaf)
    contradiction

theorem BuiltFrom.input_known (builtFrom : graph.BuiltFrom problem)
    (path : graph.Path graph.root turns id) {made : Access} {next : NodeId} {entry : AccessEntry}
    (found : graph.node? id = some (.access made next))
    (isEntry : graph.table.access? made = some entry) (types : TypeOracle) :
    (Facts.along types graph.table turns).get? entry.input ≠ none := by
  rw [← Option.isSome_iff_ne_none]
  have operand : (Step.access made).operand? graph.table = some entry.input := by
    simp [Step.operand?, isEntry]
  rcases builtFrom.supplied path found rfl operand with isRoot | ⟨earlier, inTurns, known, isOutput⟩
  · rw [isRoot]
    exact Facts.isSome_along_root (builtFrom.sameTable ▸ builtFrom.lawful.rooted) turns
  · exact Facts.isSome_along inTurns known isOutput

def knownTo (graph : DecisionGraph) (types : TypeOracle) (id : NodeId) : Set Facts :=
  {facts | ∃ turns, graph.Way turns id ∧ Facts.along types graph.table turns = facts}

theorem BuiltFrom.isJoin_transfer (builtFrom : graph.BuiltFrom problem) (types : TypeOracle)
    {facts : Facts} (found : graph.node? id = some node) (taken : (turn, target) ∈ node.turns)
    (isJoin : Facts.IsJoin graph.table (graph.knownTo types id) facts) :
    Facts.IsJoin graph.table (turn.transfer types graph.table '' graph.knownTo types id)
      (turn.transfer types graph.table facts) := by
  cases turn with
  | access made =>
      refine isJoin.afterAccess fun entry type isEntry _ => ?_
      rintro _ ⟨turns, way, rfl⟩
      cases node with
      | access other next =>
          obtain ⟨sameAccess, _⟩ := Prod.mk.inj (List.mem_singleton.mp taken)
          obtain rfl := Turn.access.inj sameAccess
          exact builtFrom.input_known way.path found isEntry types
      | test | bind | success | failure => simp [Node.turns] at taken
  | test asked outcome => exact isJoin.afterTest asked outcome
  | bind arm accepted =>
      have unchanged : Turn.transfer types graph.table (.bind arm accepted) =
          fun facts => facts := rfl
      rw [unchanged, Set.image_id']
      exact isJoin

end DecisionGraph

/-! ## One node -/

theorem Node.outflow_eq (types : TypeOracle) (table : AccessTable) (facts : Facts) (node : Node) :
    node.outflow types table facts =
      node.possibleTurns.map fun leave => (leave.2, leave.1.transfer types table facts) := by
  cases node with
  | access made next => rfl
  | test asked onTrue onFalse =>
      by_cases never : asked.predicate = .never <;>
        simp [outflow, possibleTurns, turns, Turn.Possible, Turn.transfer, never]
  | bind arm label bindings guard accepted rejected => cases rejected <;> rfl
  | success arm label => rfl
  | failure => rfl

/-- What came in so far is what some ways agree on; without a way, nothing did. -/
def Facts.Merges (table : AccessTable) (ways : Set Facts) : Option Facts → Prop
  | none => ways = ∅
  | some facts => facts.IsJoin table ways

namespace Flow

variable {types : TypeOracle} {table : AccessTable} {flow : Flow} {facts : Facts} {id : NodeId}
  {ways more : Set Facts}

theorem merges_arrive (merges : Facts.Merges table ways (flow.stateAt? id))
    (inside : id.index < flow.states.size) (isJoin : Facts.IsJoin table more facts) :
    Facts.Merges table (ways ∪ more) ((flow.arrive table (id, facts)).stateAt? id) := by
  rw [stateAt?_arrive, if_pos rfl]
  unfold stateAt? at merges
  rw [Array.getElem?_eq_getElem inside] at merges ⊢
  generalize flow.states[id.index] = before at merges ⊢
  cases before with
  | none =>
      obtain rfl : ways = ∅ := merges
      rw [Set.empty_union]
      exact isJoin
  | some before => exact Facts.IsJoin.join merges isJoin

theorem merges_foldl_arrive {here : Set Facts} (leaves : List (Turn × NodeId))
    (joins : ∀ leave ∈ leaves, Facts.IsJoin table (leave.1.transfer types table '' here)
      (leave.1.transfer types table facts))
    (merges : Facts.Merges table ways (flow.stateAt? id)) (inside : id.index < flow.states.size) :
    Facts.Merges table
      (ways ∪ {after | ∃ turn, (turn, id) ∈ leaves ∧ after ∈ turn.transfer types table '' here})
      (((leaves.map fun leave => (leave.2, leave.1.transfer types table facts)).foldl
        (arrive table) flow).stateAt? id) := by
  induction leaves generalizing flow ways with
  | nil => simpa using merges
  | cons leave rest ih =>
      have restJoins := fun other member => joins other (List.mem_cons_of_mem _ member)
      have stillInside : ∀ edge, id.index < (flow.arrive table edge).states.size := by
        intro edge
        rwa [size_states_arrive]
      rw [List.map_cons, List.foldl_cons]
      obtain ⟨turn, target⟩ := leave
      by_cases here : target = id
      · subst here
        have arrived := merges_arrive merges inside (joins _ List.mem_cons_self)
        have onward := ih restJoins arrived (stillInside _)
        convert onward using 1
        ext after
        simp [or_and_right, exists_or, or_assoc]
      · have same : (flow.arrive table (target, turn.transfer types table facts)).stateAt? id =
            flow.stateAt? id := by
          rw [stateAt?_arrive, if_neg here]
        have onward := ih restJoins (same ▸ merges) (stillInside _)
        convert onward using 1
        ext after
        simp [Ne.symm here]

end Flow

/-! ## All nodes in order -/

namespace DecisionGraph

variable {graph : DecisionGraph} {problem : MergeProblem} {types : TypeOracle} {flow : Flow}
  {front back : List NodeId} {id target : NodeId} {node : Node} {turns : List Turn}

/-- What the ways tell that come over one of the nodes in `front`, or start at the
node itself. -/
def knownOver (graph : DecisionGraph) (types : TypeOracle) (front : List NodeId) (id : NodeId) :
    Set Facts :=
  {facts | id = graph.root ∧ facts = .initial types graph.table} ∪
    {facts | ∃ source ∈ front, ∃ node, graph.node? source = some node ∧
      ∃ turn, (turn, id) ∈ node.possibleTurns ∧
        facts ∈ turn.transfer types graph.table '' graph.knownTo types source}

theorem knownOver_eq_knownTo
    (earlier : ∀ {source}, source ∈ graph.topologicalOrder → graph.Edge source id →
      source ∈ front) : graph.knownOver types front id = graph.knownTo types id := by
  ext facts
  constructor
  · rintro (⟨rfl, rfl⟩ | ⟨source, _, node, found, turn, taken, _, ⟨turns, way, rfl⟩, rfl⟩)
    · exact ⟨[], graph.way_root, rfl⟩
    · exact ⟨turns ++ [turn], way.snoc found taken, Facts.along_snoc turns turn⟩
  · rintro ⟨turns, longer, rfl⟩
    rcases way_iff.mp longer with ⟨rfl, isRoot⟩ | ⟨before, source, node, turn, way, found, taken, rfl⟩
    · exact Or.inl ⟨isRoot, rfl⟩
    · have inOrder : source ∈ graph.topologicalOrder :=
        (graph.mem_topologicalOrder source).mpr ⟨way.path.reaches, node?_inside found⟩
      have member := Node.mem_successors_of_turn (Node.mem_possibleTurns.mp taken).1
      refine Or.inr ⟨source, earlier inOrder (edge_of_node found member), node, found, turn, taken, ?_⟩
      rw [Facts.along_snoc]
      exact Set.mem_image_of_mem _ ⟨before, way, rfl⟩

theorem knownOver_append (found : graph.node? id = some node) :
    graph.knownOver types (front ++ [id]) target = graph.knownOver types front target ∪
      {facts | ∃ turn, (turn, target) ∈ node.possibleTurns ∧
        facts ∈ turn.transfer types graph.table '' graph.knownTo types id} := by
  ext facts
  simp [knownOver, or_and_right, exists_or, or_assoc, found]

/-- What holds of the facts once the nodes in `front` were visited. -/
structure Merged (graph : DecisionGraph) (types : TypeOracle) (front : List NodeId) (flow : Flow) :
    Prop where
  sized : flow.states.size = graph.size
  merges : ∀ {id}, id.index < graph.size →
    Facts.Merges graph.table (graph.knownOver types front id) (flow.stateAt? id)

theorem merged_start (graph : DecisionGraph) (types : TypeOracle) :
    graph.Merged types [] (Flow.start types graph) where
  sized := by simp [Flow.start]
  merges := by
    intro id inside
    have noFront : graph.knownOver types [] id =
        {facts | id = graph.root ∧ facts = .initial types graph.table} := by
      simp [knownOver]
    rw [noFront]
    by_cases isRoot : id = graph.root
    · have state : (Flow.start types graph).stateAt? id = some (.initial types graph.table) := by
        subst isRoot
        simp [Flow.stateAt?, Flow.start, inside]
      have onlyStart : {facts | id = graph.root ∧ facts = .initial types graph.table} =
          {Facts.initial types graph.table} := by
        simp [isRoot]
      rw [state, onlyStart]
      exact Facts.isJoin_singleton (Facts.size_cells_along [])
    · have apart : graph.root.index ≠ id.index := fun same => isRoot (NodeId.ext same.symm)
      have state : (Flow.start types graph).stateAt? id = none := by
        simp [Flow.stateAt?, Flow.start, apart, inside]
      rw [state]
      simp [Facts.Merges, isRoot]

theorem Merged.merges_knownTo (builtFrom : graph.BuiltFrom problem)
    (split : graph.topologicalOrder = front ++ id :: back) (merged : graph.Merged types front flow) :
    Facts.Merges graph.table (graph.knownTo types id) (flow.stateAt? id) := by
  have inOrder : id ∈ graph.topologicalOrder := by simp [split]
  have known := merged.merges ((graph.mem_topologicalOrder id).mp inOrder).2
  rwa [knownOver_eq_knownTo fun member edge =>
    mem_front_of_edge (acyclic_of_descending builtFrom.descending) split edge member] at known

/-- Visiting the next node sends onward what all ways to it agree on. -/
theorem Merged.visit (builtFrom : graph.BuiltFrom problem)
    (split : graph.topologicalOrder = front ++ id :: back) (merged : graph.Merged types front flow) :
    graph.Merged types (front ++ [id]) (flow.visit types graph id) := by
  have inOrder : id ∈ graph.topologicalOrder := by simp [split]
  have inside := ((graph.mem_topologicalOrder id).mp inOrder).2
  obtain ⟨node, stored⟩ : ∃ node, graph.node? id = some node := ⟨_, Array.getElem?_eq_getElem inside⟩
  have known := merged.merges_knownTo builtFrom split
  unfold Flow.visit
  rw [stored]
  cases state : flow.stateAt? id with
  | none =>
      have noWays : graph.knownTo types id = ∅ := by rwa [state] at known
      refine ⟨merged.sized, fun targetInside => ?_⟩
      rw [knownOver_append stored, noWays]
      simpa using merged.merges targetInside
  | some facts =>
      rw [state] at known
      refine ⟨by simp [merged.sized], fun targetInside => ?_⟩
      rw [knownOver_append stored]
      dsimp only
      rw [Node.outflow_eq]
      refine Flow.merges_foldl_arrive _ ?_ ?_ ?_
      · rintro ⟨turn, target⟩ member
        exact builtFrom.isJoin_transfer types stored (Node.mem_possibleTurns.mp member).1 known
      · unfold Flow.stateAt?
        rw [Flow.states_record]
        exact merged.merges targetInside
      · rwa [Flow.states_record, merged.sized]

theorem BuiltFrom.inside (builtFrom : graph.BuiltFrom problem) (way : graph.Way turns id) :
    id.index < graph.size := by
  rcases way.path.represents builtFrom.represents with here | ⟨_, _, _, _, _, leaf⟩
  · exact here.inside
  · exact node?_inside leaf

theorem BuiltFrom.isJoin_flow (builtFrom : graph.BuiltFrom problem) (types : TypeOracle)
    (feasible : graph.Feasible id) :
    ∃ facts, (graph.flow types).stateAt? id = some facts ∧
      Facts.IsJoin graph.table (graph.knownTo types id) facts := by
  have merged : graph.Merged types graph.topologicalOrder (graph.flow types) :=
    flow_induction (graph.merged_start types) fun split merged => merged.visit builtFrom split
  obtain ⟨turns, way⟩ := feasible_iff.mp feasible
  have merges := merged.merges (builtFrom.inside way)
  rw [knownOver_eq_knownTo fun member _ => member] at merges
  cases state : (graph.flow types).stateAt? id with
  | some facts => exact ⟨facts, rfl, by rwa [state] at merges⟩
  | none =>
      have noWays : graph.knownTo types id = ∅ := by rwa [state] at merges
      have isKnown : Facts.along types graph.table turns ∈ graph.knownTo types id :=
        ⟨turns, way, rfl⟩
      rw [noWays] at isKnown
      contradiction

/-- Ways that are joined one after the other, in whatever order, come to what they
agree on. -/
theorem isJoin_foldl_along {first : List Turn} {rest : List (List Turn)}
    (listed : ∀ turns, turns ∈ first :: rest ↔ graph.Way turns id) :
    Facts.IsJoin graph.table (graph.knownTo types id)
      ((rest.map (Facts.along types graph.table)).foldl (Facts.join graph.table)
        (Facts.along types graph.table first)) := by
  have sameWays : graph.knownTo types id = {Facts.along types graph.table first} ∪
      {way | way ∈ rest.map (Facts.along types graph.table)} := by
    ext facts
    simp only [knownTo, ← listed, List.mem_cons, Set.mem_ofPred_eq, or_and_right, exists_or,
      exists_eq_left, Set.mem_union, Set.mem_singleton_iff, List.mem_map]
    exact or_congr_left eq_comm
  rw [sameWays]
  refine (Facts.isJoin_singleton (Facts.size_cells_along first)).foldl_join _ fun way member => ?_
  obtain ⟨turns, _, rfl⟩ := List.mem_map.mp member
  exact Facts.size_cells_along turns

variable {options : Options} {input : Ty} {arms : List Arm}

/-- The facts at a node of a built graph are the join, over all possible paths
from the root and in any order, of what each path tells by itself. A slot has none
where some path leaves it empty. -/
theorem flow_eq_join (built : ofArms types options input arms = .ok graph)
    (feasible : graph.Feasible id) :
    ∃ facts, (graph.flow types).stateAt? id = some facts ∧
      (∃ first rest, ∀ turns, turns ∈ first :: rest ↔ graph.Way turns id) ∧
      (∀ first rest, (∀ turns, turns ∈ first :: rest ↔ graph.Way turns id) →
        (rest.map (Facts.along types graph.table)).foldl (Facts.join graph.table)
          (Facts.along types graph.table first) = facts) ∧
      ∀ temp,
        (facts.get? temp = none ↔
          ∃ turns, graph.Way turns id ∧ (Facts.along types graph.table turns).get? temp = none) ∧
        ∀ fact, facts.get? temp = some fact →
          Fact.IsJoin (graph.table.typeOf temp)
            {known | ∃ turns, graph.Way turns id ∧
              (Facts.along types graph.table turns).get? temp = some known} fact := by
  obtain ⟨problem, _, builtFrom⟩ := exists_builtFrom built
  obtain ⟨facts, state, isJoin⟩ := builtFrom.isJoin_flow types feasible
  refine ⟨facts, state, ?_, ?_, fun temp => ⟨?_, ?_⟩⟩
  · cases listed : graph.ways id with
    | nil =>
        obtain ⟨turns, way⟩ := feasible_iff.mp feasible
        have member := (mem_ways_iff builtFrom.descending (builtFrom.inside graph.way_root)).mpr way
        rw [listed] at member
        contradiction
    | cons first rest =>
        refine ⟨first, rest, fun turns => ?_⟩
        rw [← listed]
        exact mem_ways_iff builtFrom.descending (builtFrom.inside graph.way_root)
  · exact fun first rest listed => (isJoin_foldl_along listed).unique isJoin
  · rw [isJoin.absent]
    simp only [knownTo, Set.mem_ofPred_eq, exists_exists_and_eq_and]
  · intro fact found
    have onWays := isJoin.present temp fact found
    simpa only [Facts.known, knownTo, Set.mem_ofPred_eq, exists_exists_and_eq_and] using onWays

/-- A point is taken by the first arm if its guard wants it. -/
def guardedPoint : List Arm :=
  [⟨.typed Hierarchy.object ⟨2⟩ (some ⟨3⟩), some ⟨0⟩, ⟨0⟩⟩, ⟨.discard Hierarchy.object, none, ⟨1⟩⟩]

def guardedPointGraph : DecisionGraph where
  nodes := #[.success 0 ⟨0⟩, .success 1 ⟨1⟩, .bind 0 ⟨0⟩ [⟨⟨3⟩, ⟨1⟩⟩] (some ⟨0⟩) ⟨0⟩ (some ⟨1⟩),
    .access ⟨0⟩ ⟨2⟩, .test ⟨.root, .ofType ⟨2⟩⟩ ⟨3⟩ ⟨1⟩, .test ⟨.root, .nonNull⟩ ⟨4⟩ ⟨1⟩]
  root := ⟨5⟩
  table := ⟨[⟨⟨0⟩, none, 0⟩, ⟨⟨2⟩, some ⟨0⟩, 0⟩], [⟨.root, .cast ⟨2⟩⟩]⟩
  armCount := 2

/-- Null, no point, or a point that the guard rejects. -/
def secondArmWays : List (List Turn) :=
  [[.test ⟨.root, .nonNull⟩ false],
    [.test ⟨.root, .nonNull⟩ true, .test ⟨.root, .ofType ⟨2⟩⟩ false],
    [.test ⟨.root, .nonNull⟩ true, .test ⟨.root, .ofType ⟨2⟩⟩ true, .access ⟨0⟩, .bind 0 false]]

/-- What is left to the second arm may be null, and it has its static type: the
ways to it tell different ones. The cast was made on the last of them only. -/
theorem flow_eq_join_guardedPoint :
    (∀ turns, turns ∈ secondArmWays ↔ guardedPointGraph.Way turns ⟨1⟩) ∧
      secondArmWays.map (fun turns =>
        (Facts.along shapes.oracle guardedPointGraph.table turns).cells.toList) =
          [[some ⟨.maybeNull, ⟨0⟩⟩, none], [some ⟨.notNull, ⟨0⟩⟩, none],
            [some ⟨.notNull, ⟨2⟩⟩, some ⟨.notNull, ⟨2⟩⟩]] ∧
      (guardedPointGraph.flow shapes.oracle).stateAt? ⟨1⟩ =
        some ⟨#[some ⟨.maybeNull, ⟨0⟩⟩, none]⟩ := by
  have built : ofArms shapes.oracle {} Hierarchy.object guardedPoint = .ok guardedPointGraph := by
    cbv
  have isListed : guardedPointGraph.ways ⟨1⟩ = secondArmWays := by cbv
  have listed : ∀ turns, turns ∈ secondArmWays ↔ guardedPointGraph.Way turns ⟨1⟩ := by
    intro turns
    rw [← isListed]
    exact mem_ways_iff (by decide) (by decide)
  have feasible := feasible_iff.mpr ⟨_, (listed _).mp List.mem_cons_self⟩
  obtain ⟨facts, state, _, joined, _⟩ := flow_eq_join built feasible
  refine ⟨listed, by cbv, ?_⟩
  rw [state, ← joined _ _ listed]
  cbv

end DecisionGraph

end MatchCompiler
