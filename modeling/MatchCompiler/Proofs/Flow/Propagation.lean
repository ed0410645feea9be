import MatchCompiler.Flow
import MatchCompiler.Proofs.Conformance

/-!
# Facts are propagated to where walks go

Nodes are visited in an order in which every edge leads onward, so when a node
is visited, facts have come in over all edges into it. A walk that comes to the
node came over one of them, and the join holds of whatever one of its sides
holds of.
-/

set_option autoImplicit false

namespace MatchCompiler

/-! ## Facts about variables -/

structure VariableFact.HoldsAt (typing : Typing) (bindings : List Binding) (slots : Slots Value)
    (entry : VariableFact) : Prop where
  bound : ⟨entry.name, entry.temp⟩ ∈ bindings
  holds : ∃ value, slots.get? entry.temp = some value ∧ entry.fact.Holds typing value

namespace VariableFact

variable {types : TypeOracle} {typing : Typing} {table : AccessTable} {slots : Slots Value}
  {facts : Facts} {bindings : List Binding} {mine others : List VariableFact}

theorem bound_ofBindings : ∀ entry ∈ ofBindings facts bindings,
    (⟨entry.name, entry.temp⟩ : Binding) ∈ bindings := by
  intro entry member
  obtain ⟨binding, inBindings, isEntry⟩ := List.mem_filterMap.mp member
  obtain ⟨fact, _, rfl⟩ := Option.map_eq_some_iff.mp isEntry
  exact inBindings

theorem holdsAt_ofBindings (holdOf : facts.HoldOf typing slots) :
    ∀ entry ∈ ofBindings facts bindings, entry.HoldsAt typing bindings slots := by
  intro entry member
  refine ⟨bound_ofBindings entry member, ?_⟩
  obtain ⟨binding, _, isEntry⟩ := List.mem_filterMap.mp member
  obtain ⟨fact, known, rfl⟩ := Option.map_eq_some_iff.mp isEntry
  exact holdOf _ _ known

theorem exists_of_mem_joinAll {entry : VariableFact}
    (member : entry ∈ joinAll table mine others) :
    ∃ first ∈ mine, ∃ second ∈ others, second.name = first.name ∧ second.temp = first.temp ∧
      entry = { first with fact := first.fact.join (table.typeOf first.temp) second.fact } := by
  obtain ⟨first, inMine, isEntry⟩ := List.mem_filterMap.mp member
  obtain ⟨second, found, rfl⟩ := Option.map_eq_some_iff.mp isEntry
  have matching := List.find?_some found
  simp only [Bool.and_eq_true, beq_iff_eq] at matching
  exact ⟨first, inMine, second, List.mem_of_find?_eq_some found, matching.2, matching.1, rfl⟩

theorem HoldsAt.joinAll_left (typed : slots.Typed types typing table)
    (holdAt : ∀ entry ∈ mine, entry.HoldsAt typing bindings slots) :
    ∀ entry ∈ joinAll table mine others, entry.HoldsAt typing bindings slots := by
  intro entry member
  obtain ⟨first, inMine, second, _, _, _, rfl⟩ := exists_of_mem_joinAll member
  obtain ⟨bound, value, filled, holds⟩ := holdAt first inMine
  exact ⟨bound, value, filled, holds.join_left (typed _ _ filled)⟩

theorem HoldsAt.joinAll_right (typed : slots.Typed types typing table)
    (holdAt : ∀ entry ∈ others, entry.HoldsAt typing bindings slots) :
    ∀ entry ∈ joinAll table mine others, entry.HoldsAt typing bindings slots := by
  intro entry member
  obtain ⟨first, _, second, inOthers, sameName, sameTemp, rfl⟩ := exists_of_mem_joinAll member
  obtain ⟨bound, value, filled, holds⟩ := holdAt second inOthers
  rw [sameName, sameTemp] at bound
  rw [sameTemp] at filled
  exact ⟨bound, value, filled, holds.join_right (typed _ _ filled)⟩

end VariableFact

/-! ## One edge and one node -/

namespace Flow

def TrueAt (typing : Typing) (flow : Flow) (id : NodeId) (slots : Slots Value) : Prop :=
  ∃ facts, flow.stateAt? id = some facts ∧ facts.HoldOf typing slots

def RecordsTruth (typing : Typing) (flow : Flow) (arm : Nat) (bindings : List Binding)
    (slots : Slots Value) : Prop :=
  ∀ recorded, flow.bound[arm]? = some recorded →
    ∃ entries, recorded = some entries ∧ ∀ entry ∈ entries, entry.HoldsAt typing bindings slots

variable {types : TypeOracle} {typing : Typing} {table : AccessTable} {flow : Flow}
  {slots : Slots Value} {facts : Facts} {id : NodeId} {node : Node}

theorem stateAt?_arrive (table : AccessTable) (flow : Flow) (edge : NodeId × Facts) (id : NodeId) :
    (flow.arrive table edge).stateAt? id =
      if edge.1 = id then
        flow.states[id.index]?.map fun known =>
          match known with
          | none => edge.2
          | some facts => facts.join table edge.2
      else flow.stateAt? id := by
  unfold stateAt? arrive
  rw [Array.getElem?_modify]
  by_cases same : edge.1 = id
  · rw [if_pos same, if_pos (congrArg NodeId.index same)]
    rcases flow.states[id.index]? with _ | (_ | facts) <;> rfl
  · rw [if_neg same, if_neg fun sameIndex => same (congrArg NodeId.mk sameIndex)]

@[simp] theorem size_states_arrive (table : AccessTable) (flow : Flow) (edge : NodeId × Facts) :
    (flow.arrive table edge).states.size = flow.states.size :=
  Array.size_modify

theorem TrueAt.arrive (trueAt : flow.TrueAt typing id slots) (typed : slots.Typed types typing table)
    (edge : NodeId × Facts) : (flow.arrive table edge).TrueAt typing id slots := by
  obtain ⟨facts, known, holdOf⟩ := trueAt
  unfold TrueAt
  rw [stateAt?_arrive]
  split
  · have stored := Option.join_eq_some_iff.mp known
    rw [stored]
    exact ⟨_, rfl, holdOf.join_left typed⟩
  · exact ⟨facts, known, holdOf⟩

theorem trueAt_arrive (holdOf : facts.HoldOf typing slots) (typed : slots.Typed types typing table)
    (inside : id.index < flow.states.size) :
    (flow.arrive table (id, facts)).TrueAt typing id slots := by
  unfold TrueAt
  rw [stateAt?_arrive, if_pos rfl, Array.getElem?_eq_getElem inside]
  cases flow.states[id.index] with
  | none => exact ⟨facts, rfl, holdOf⟩
  | some known => exact ⟨_, rfl, holdOf.join_right typed⟩

@[simp] theorem size_states_foldl_arrive (edges : List (NodeId × Facts)) :
    (edges.foldl (arrive table) flow).states.size = flow.states.size := by
  induction edges generalizing flow with
  | nil => rfl
  | cons edge rest ih => rw [List.foldl_cons, ih, size_states_arrive]

@[simp] theorem bound_foldl_arrive (edges : List (NodeId × Facts)) :
    (edges.foldl (arrive table) flow).bound = flow.bound := by
  induction edges generalizing flow with
  | nil => rfl
  | cons edge rest ih =>
      rw [List.foldl_cons, ih]
      rfl

theorem TrueAt.foldl_arrive (edges : List (NodeId × Facts))
    (trueAt : flow.TrueAt typing id slots) (typed : slots.Typed types typing table) :
    (edges.foldl (Flow.arrive table) flow).TrueAt typing id slots := by
  induction edges generalizing flow with
  | nil => exact trueAt
  | cons edge rest ih => exact ih (trueAt.arrive typed edge)

theorem trueAt_foldl_arrive {edges : List (NodeId × Facts)} (member : (id, facts) ∈ edges)
    (holdOf : facts.HoldOf typing slots) (typed : slots.Typed types typing table)
    (inside : id.index < flow.states.size) :
    (edges.foldl (arrive table) flow).TrueAt typing id slots := by
  induction edges generalizing flow with
  | nil => exact absurd member List.not_mem_nil
  | cons edge rest ih =>
      rcases List.mem_cons.mp member with rfl | inRest
      · exact (trueAt_arrive holdOf typed inside).foldl_arrive rest typed
      · exact ih inRest (by rw [size_states_arrive]; exact inside)

@[simp] theorem states_record (table : AccessTable) (facts : Facts) (flow : Flow) (node : Node) :
    (flow.record table facts node).states = flow.states := by
  cases node <;> rfl

theorem bound_record {arm : Nat} {entries : List VariableFact}
    (known : (flow.record table facts node).bound[arm]? = some (some entries)) :
    flow.bound[arm]? = some (some entries) ∨
      ∃ label bindings guard accepted rejected,
        node = .bind arm label bindings guard accepted rejected ∧
        (entries = VariableFact.ofBindings facts bindings ∨
          ∃ others, flow.bound[arm]? = some (some others) ∧
            entries = VariableFact.joinAll table others (VariableFact.ofBindings facts bindings)) := by
  cases node with
  | bind bindingArm label bindings guard accepted rejected =>
      simp only [record, Array.getElem?_modify] at known
      split at known
      · rename_i sameArm
        subst sameArm
        refine Or.inr ⟨_, _, _, _, _, rfl, ?_⟩
        rcases stored : flow.bound[bindingArm]? with _ | (_ | others)
        · simp [stored] at known
        · exact Or.inl (by simpa [stored] using known.symm)
        · exact Or.inr ⟨others, rfl, by simpa [stored] using known.symm⟩
      · exact Or.inl known
  | access made next => exact Or.inl known
  | test asked onTrue onFalse => exact Or.inl known
  | success takenArm label => exact Or.inl known
  | failure => exact Or.inl known

theorem RecordsTruth.record {arm : Nat} {bindings : List Binding}
    (truth : flow.RecordsTruth typing arm bindings slots) (typed : slots.Typed types typing table)
    (facts : Facts) (node : Node) :
    (flow.record table facts node).RecordsTruth typing arm bindings slots := by
  cases node with
  | bind bindingArm label others guard accepted rejected =>
      intro recorded known
      simp only [Flow.record, Array.getElem?_modify] at known
      split at known
      · rename_i sameArm
        subst sameArm
        obtain ⟨stored, found, rfl⟩ := Option.map_eq_some_iff.mp known
        obtain ⟨entries, rfl, holdAt⟩ := truth stored found
        exact ⟨_, rfl, VariableFact.HoldsAt.joinAll_left typed holdAt⟩
      · exact truth recorded known
  | access made next => exact truth
  | test asked onTrue onFalse => exact truth
  | success takenArm label => exact truth
  | failure => exact truth

theorem recordsTruth_record {arm : Nat} {label : Label} {bindings : List Binding}
    {guard : Option Guard} {accepted : NodeId} {rejected : Option NodeId}
    (holdOf : facts.HoldOf typing slots) (typed : slots.Typed types typing table) :
    (flow.record table facts (.bind arm label bindings guard accepted rejected)).RecordsTruth typing
      arm bindings slots := by
  intro recorded known
  simp only [record, Array.getElem?_modify, if_true] at known
  have here : ∀ entry ∈ VariableFact.ofBindings facts bindings, entry.HoldsAt typing bindings slots :=
    VariableFact.holdsAt_ofBindings holdOf
  obtain ⟨stored, _, rfl⟩ := Option.map_eq_some_iff.mp known
  cases stored with
  | none => exact ⟨_, rfl, here⟩
  | some others => exact ⟨_, rfl, VariableFact.HoldsAt.joinAll_right typed here⟩

theorem exists_mem_outflow {oracle : GuardOracle} {input : Value} {progress after : Progress}
    {target : NodeId} (lawful : table.Lawful) (sound : progress.slots.Sound table input)
    (typed : after.slots.Typed types typing table) (holdOf : facts.HoldOf typing progress.slots)
    (advanced : node.advance table typing oracle progress = .proceed target after) :
    ∃ onward, (target, onward) ∈ node.outflow types table facts ∧
      onward.HoldOf typing after.slots := by
  cases node with
  | access made next =>
      obtain ⟨rfl, slots, performed, rfl⟩ := Advance.access_eq_proceed advanced
      exact ⟨_, List.mem_singleton_self _, holdOf.afterAccess lawful sound performed typed⟩
  | test asked onTrue onFalse =>
      obtain ⟨value, filled, isTarget, rfl⟩ := Advance.choose_eq_proceed advanced
      cases came : asked.predicate.holds typing value with
      | true =>
          rw [came, if_pos rfl] at isTarget
          have possible : asked.predicate ≠ .never := by
            intro impossible
            rw [impossible] at came
            contradiction
          refine ⟨facts.afterTest asked true, ?_, holdOf.afterTest filled came⟩
          simp [Node.outflow, possible, isTarget]
      | false =>
          rw [came, if_neg Bool.false_ne_true] at isTarget
          refine ⟨facts.afterTest asked false, ?_, holdOf.afterTest filled came⟩
          simp [Node.outflow, isTarget]
  | bind arm label bindings guard accepted rejected =>
      have along : target ∈ accepted :: rejected.toList := Node.mem_successors_of_proceed advanced
      have same : after.slots = progress.slots := by
        rcases DecisionGraph.slots_of_proceed advanced with same | ⟨_, isAccess, _⟩
        · exact same
        · contradiction
      exact ⟨facts, List.mem_map_of_mem along, same ▸ holdOf⟩
  | success arm label => cases advanced
  | failure => cases advanced

end Flow

/-! ## All nodes in order -/

namespace DecisionGraph

variable {graph : DecisionGraph} {types : TypeOracle} {typing : Typing} {oracle : GuardOracle}
  {input : Value} {id : NodeId} {progress : Progress} {front back : List NodeId} {flow : Flow}

/-- What every visit keeps holds of the facts once all nodes were visited. -/
theorem flow_induction {kept : List NodeId → Flow → Prop} (start : kept [] (Flow.start types graph))
    (visit : ∀ {front back : List NodeId} {id : NodeId} {flow : Flow},
      graph.topologicalOrder = front ++ id :: back → kept front flow →
      kept (front ++ [id]) (flow.visit types graph id)) :
    kept graph.topologicalOrder (graph.flow types) := by
  have onward : ∀ (back front : List NodeId) (flow : Flow),
      graph.topologicalOrder = front ++ back → kept front flow →
      kept graph.topologicalOrder (back.foldl (Flow.visit types graph) flow) := by
    intro back
    induction back with
    | nil =>
        intro front flow split keeps
        rw [split, List.append_nil]
        exact keeps
    | cons id rest ih =>
        intro front flow split keeps
        exact ih (front ++ [id]) _ (by simp [split]) (visit split keeps)
  exact onward graph.topologicalOrder [] _ rfl start

/-- A walk comes to a node from one of the nodes in `front`, or it starts there. -/
def Arrives (graph : DecisionGraph) (typing : Typing) (oracle : GuardOracle) (input : Value)
    (front : List NodeId) (id : NodeId) (progress : Progress) : Prop :=
  (id = graph.root ∧ progress = .start graph.table input) ∨
    ∃ source ∈ front, ∃ before node, graph.Visits typing oracle input source before ∧
      graph.node? source = some node ∧
      node.advance graph.table typing oracle before = .proceed id progress

theorem Arrives.visits (arrives : graph.Arrives typing oracle input front id progress) :
    graph.Visits typing oracle input id progress := by
  rcases arrives with ⟨rfl, rfl⟩ | ⟨_, _, _, _, visited, found, advanced⟩
  · exact .root
  · exact visited.next found advanced

theorem Visits.reaches (visited : graph.Visits typing oracle input id progress) :
    graph.Reaches graph.root id := by
  induction visited with
  | root => exact .refl
  | next _ found advanced ih =>
      exact ih.tail (edge_of_node found (Node.mem_successors_of_proceed advanced))

theorem Visits.arrives (acyclic : graph.Acyclic)
    (split : graph.topologicalOrder = front ++ id :: back)
    (visited : graph.Visits typing oracle input id progress) :
    graph.Arrives typing oracle input front id progress := by
  cases visited with
  | root => exact Or.inl ⟨rfl, rfl⟩
  | @next source _ before _ node visited found advanced =>
      have edge := edge_of_node found (Node.mem_successors_of_proceed advanced)
      have inOrder : source ∈ graph.topologicalOrder :=
        (graph.mem_topologicalOrder source).mpr ⟨visited.reaches, node?_inside found⟩
      exact Or.inr ⟨source, mem_front_of_edge acyclic split edge inOrder, before, node, visited,
        found, advanced⟩

/-- What holds of the facts once the nodes in `front` were visited. -/
structure Propagated (graph : DecisionGraph) (typing : Typing) (oracle : GuardOracle)
    (input : Value) (front : List NodeId) (flow : Flow) : Prop where
  sized : flow.states.size = graph.size
  arrived : ∀ {id progress}, graph.Arrives typing oracle input front id progress →
    id.index < graph.size → flow.TrueAt typing id progress.slots
  recorded : ∀ {id progress arm label bindings guard accepted rejected}, id ∈ front →
    graph.Visits typing oracle input id progress →
    graph.node? id = some (.bind arm label bindings guard accepted rejected) →
    flow.RecordsTruth typing arm bindings progress.slots
  bound : ∀ {arm entries}, flow.bound[arm]? = some (some entries) →
    ∃ id ∈ front, ∃ label bindings guard accepted rejected,
      graph.node? id = some (.bind arm label bindings guard accepted rejected) ∧
      ∀ entry ∈ entries, (⟨entry.name, entry.temp⟩ : Binding) ∈ bindings

theorem propagated_start (rooted : graph.table.Rooted)
    (typed : ∀ {id progress}, graph.Visits typing oracle input id progress →
      progress.slots.Typed types typing graph.table) :
    graph.Propagated typing oracle input [] (Flow.start types graph) where
  sized := by simp [Flow.start]
  arrived := by
    rintro id progress (⟨rfl, rfl⟩ | ⟨_, inFront, _⟩) inside
    · refine ⟨Facts.initial types graph.table, ?_, Facts.holdOf_initial rooted (typed .root)⟩
      simp [Flow.stateAt?, Flow.start, inside]
    · exact absurd inFront List.not_mem_nil
  recorded := by
    intro id progress arm label bindings guard accepted rejected inFront
    exact absurd inFront List.not_mem_nil
  bound := by
    intro arm entries known
    simp [Flow.start, Array.getElem?_replicate] at known

theorem Propagated.skip (propagated : graph.Propagated typing oracle input front flow)
    (unvisited : ∀ {progress}, ¬graph.Visits typing oracle input id progress) :
    graph.Propagated typing oracle input (front ++ [id]) flow where
  sized := propagated.sized
  arrived := by
    intro target progress arrives
    refine propagated.arrived (arrives.imp_right ?_)
    rintro ⟨source, member, before, node, visited, rest⟩
    rcases List.mem_append.mp member with inFront | isLast
    · exact ⟨source, inFront, before, node, visited, rest⟩
    · obtain rfl := List.mem_singleton.mp isLast
      exact absurd visited unvisited
  recorded := by
    intro source progress arm label bindings guard accepted rejected member visited
    rcases List.mem_append.mp member with inFront | isLast
    · exact propagated.recorded inFront visited
    · obtain rfl := List.mem_singleton.mp isLast
      exact absurd visited unvisited
  bound := by
    intro arm entries known
    obtain ⟨source, inFront, rest⟩ := propagated.bound known
    exact ⟨source, List.mem_append_left _ inFront, rest⟩

theorem Propagated.send {node : Node} {facts : Facts} (lawful : graph.table.Lawful)
    (typed : ∀ {id progress}, graph.Visits typing oracle input id progress →
      progress.slots.Typed types typing graph.table)
    (propagated : graph.Propagated typing oracle input front flow)
    (stored : graph.node? id = some node)
    (holdOf : ∀ {progress}, graph.Visits typing oracle input id progress →
      facts.HoldOf typing progress.slots) :
    graph.Propagated typing oracle input (front ++ [id])
      ((node.outflow types graph.table facts).foldl (Flow.arrive graph.table)
        (flow.record graph.table facts node)) where
  sized := by
    rw [Flow.size_states_foldl_arrive, Flow.states_record, propagated.sized]
  arrived := by
    rintro target progress arrives targetInside
    have here := typed arrives.visits
    have earlier : graph.Arrives typing oracle input front target progress →
        ((node.outflow types graph.table facts).foldl (Flow.arrive graph.table)
          (flow.record graph.table facts node)).TrueAt typing target progress.slots := by
      intro arrived
      refine Flow.TrueAt.foldl_arrive _ ?_ here
      unfold Flow.TrueAt Flow.stateAt?
      rw [Flow.states_record]
      exact propagated.arrived arrived targetInside
    rcases arrives with isRoot | ⟨source, member, before, passed, visited, found, advanced⟩
    · exact earlier (Or.inl isRoot)
    · rcases List.mem_append.mp member with inFront | isLast
      · exact earlier (Or.inr ⟨source, inFront, before, passed, visited, found, advanced⟩)
      · obtain rfl := List.mem_singleton.mp isLast
        obtain rfl := Option.some.inj (stored.symm.trans found)
        obtain ⟨onward, along, onwardHoldOf⟩ := Flow.exists_mem_outflow lawful
          (visited.sound lawful.rooted) here (holdOf visited) advanced
        exact Flow.trueAt_foldl_arrive along onwardHoldOf here
          (by rw [Flow.states_record, propagated.sized]; exact targetInside)
  recorded := by
    intro source progress arm label bindings guard accepted rejected member visited found
    unfold Flow.RecordsTruth
    rw [Flow.bound_foldl_arrive]
    rcases List.mem_append.mp member with inFront | isLast
    · exact (propagated.recorded inFront visited found).record (typed visited) facts node
    · obtain rfl := List.mem_singleton.mp isLast
      obtain rfl := Option.some.inj (stored.symm.trans found)
      exact Flow.recordsTruth_record (holdOf visited) (typed visited)
  bound := by
    intro arm entries known
    rw [Flow.bound_foldl_arrive] at known
    rcases Flow.bound_record known with before | ⟨label, bindings, guard, accepted, rejected, rfl, new⟩
    · obtain ⟨source, inFront, rest⟩ := propagated.bound before
      exact ⟨source, List.mem_append_left _ inFront, rest⟩
    · refine ⟨id, by simp, label, bindings, guard, accepted, rejected, stored, ?_⟩
      rcases new with rfl | ⟨others, _, rfl⟩
      · exact VariableFact.bound_ofBindings
      · intro entry member
        obtain ⟨first, _, second, inHere, sameName, sameTemp, rfl⟩ :=
          VariableFact.exists_of_mem_joinAll member
        have bound := VariableFact.bound_ofBindings second inHere
        rw [sameName, sameTemp] at bound
        exact bound

theorem Propagated.visit (acyclic : graph.Acyclic) (lawful : graph.table.Lawful)
    (typed : ∀ {id progress}, graph.Visits typing oracle input id progress →
      progress.slots.Typed types typing graph.table)
    (split : graph.topologicalOrder = front ++ id :: back)
    (propagated : graph.Propagated typing oracle input front flow) :
    graph.Propagated typing oracle input (front ++ [id]) (flow.visit types graph id) := by
  have inOrder : id ∈ graph.topologicalOrder := by simp [split]
  have inside := ((graph.mem_topologicalOrder id).mp inOrder).2
  have stored : graph.node? id = some graph.nodes[id.index] := Array.getElem?_eq_getElem inside
  have trueAt : ∀ {progress}, graph.Visits typing oracle input id progress →
      flow.TrueAt typing id progress.slots :=
    fun visited => propagated.arrived (visited.arrives acyclic split) inside
  unfold Flow.visit
  rw [stored]
  cases known : flow.stateAt? id with
  | none =>
      refine propagated.skip fun visited => ?_
      obtain ⟨facts, isKnown, _⟩ := trueAt visited
      rw [known] at isKnown
      contradiction
  | some facts =>
      refine propagated.send lawful typed stored fun visited => ?_
      obtain ⟨others, isKnown, holdOf⟩ := trueAt visited
      obtain rfl := Option.some.inj (known.symm.trans isKnown)
      exact holdOf

theorem propagated_flow (acyclic : graph.Acyclic) (lawful : graph.table.Lawful)
    (typed : ∀ {id progress}, graph.Visits typing oracle input id progress →
      progress.slots.Typed types typing graph.table) :
    graph.Propagated typing oracle input graph.topologicalOrder (graph.flow types) :=
  flow_induction (propagated_start lawful.rooted typed) fun split propagated =>
    propagated.visit acyclic lawful typed split

theorem Propagated.trueAt
    (propagated : graph.Propagated typing oracle input graph.topologicalOrder flow)
    (visited : graph.Visits typing oracle input id progress) (inside : id.index < graph.size) :
    flow.TrueAt typing id progress.slots := by
  refine propagated.arrived ?_ inside
  cases visited with
  | root => exact Or.inl ⟨rfl, rfl⟩
  | @next source _ before _ node visited found advanced =>
      exact Or.inr ⟨source, (graph.mem_topologicalOrder source).mpr
        ⟨visited.reaches, node?_inside found⟩, before, node, visited, found, advanced⟩

end DecisionGraph

end MatchCompiler
