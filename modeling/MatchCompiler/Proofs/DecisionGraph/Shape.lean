import Mathlib
import MatchCompiler.Proofs.DecisionGraph.Construction

/-!
# The shape of a built graph

Whatever the checklists say and however the types relate, a built graph is small
enough, falls towards its leaves, holds nothing that cannot be reached from its
root, has each leaf once, and does nothing that no checklist asks for.
-/

set_option autoImplicit false

namespace MatchCompiler

/-- What a node does is taken from the checklists: its step from any of them, its
variables, guard and label from that of its arm. -/
def Node.Serves (checklists : List Checklist) (nodes : Array Node) : Node → Prop
  | .access made _ => ∃ checklist ∈ checklists, .access made ∈ checklist.steps
  | .test asked _ _ => ∃ checklist ∈ checklists, .test asked ∈ checklist.steps
  | .bind arm label bindings guard accepted rejected => ∃ checklist,
      checklists[arm]? = some checklist ∧ label = checklist.label ∧
        bindings = checklist.bindings ∧ guard = checklist.guard ∧
          nodes[accepted.index]? = some (.success arm label) ∧ rejected.isSome = guard.isSome
  | .success arm label => ∃ checklist, checklists[arm]? = some checklist ∧ label = checklist.label
  | .failure => True

theorem Node.Serves.kept {checklists : List Checklist} {before after : Array Node} {node : Node}
    (serves : node.Serves checklists before) (kept : Kept before after) :
    node.Serves checklists after := by
  cases node with
  | bind arm label bindings guard accepted rejected =>
      obtain ⟨checklist, found, isLabel, isBindings, isGuard, leads, decides⟩ := serves
      exact ⟨checklist, found, isLabel, isBindings, isGuard, kept _ _ leads, decides⟩
  | _ => exact serves

/-- Every step still to do is one of its arm's own. -/
def Residual.Within (problem : MergeProblem) (state : Residual problem.checklists.size) : Prop :=
  ∀ pending ∈ state, pending.todo ⊆ (problem.checklist pending.arm).steps

namespace Residual.Within

variable {problem : MergeProblem} {state : Residual problem.checklists.size}

theorem start (problem : MergeProblem) : problem.start.Within problem := by
  intro pending member
  obtain ⟨arm, _, rfl⟩ := List.mem_map.mp member
  exact fun step inSteps => inSteps

theorem tail {pending : Pending problem.checklists.size} {rest : Residual problem.checklists.size}
    (within : Residual.Within problem (pending :: rest)) : rest.Within problem :=
  fun other member => within other (List.mem_cons_of_mem _ member)

theorem afterAccess (within : state.Within problem) (made : Access) :
    (state.afterAccess made).Within problem := by
  intro pending member
  obtain ⟨earlier, inState, rfl⟩ := List.mem_map.mp member
  exact List.Subset.trans (List.filter_subset_self _) (within earlier inState)

theorem afterTest (within : state.Within problem) (asked : Test) (outcome : Bool) :
    (state.afterTest problem asked outcome).Within problem := by
  intro pending member
  obtain ⟨earlier, inState, rfl, _⟩ := Residual.exists_of_mem_afterTest member
  exact List.Subset.trans (List.filter_subset_self _) (within earlier inState)

theorem exists_checklist {step : Step} (within : state.Within problem)
    (isHead : ∃ pending ∈ state, pending.todo.head? = some step) :
    ∃ checklist ∈ problem.checklists.toList, step ∈ checklist.steps := by
  obtain ⟨pending, inState, headed⟩ := isHead
  have inTodo : step ∈ pending.todo := List.mem_of_head? headed
  refine ⟨problem.checklist pending.arm, ?_, within pending inState inTodo⟩
  exact Array.mem_toList_iff.mpr (Array.getElem_mem _)

end Residual.Within

theorem Arena.found_of_leaf {count limit : Nat} {arena after : Arena count} {node : Node}
    {id : NodeId} (leafed : arena.leaf limit node = .ok (id, after)) :
    after.nodes[id.index]? = some node := by
  rcases leaf_eq_ok leafed with ⟨rfl, found⟩ | ⟨_, pushed⟩
  · exact found
  · obtain ⟨_, rfl, rfl⟩ := push_eq_ok pushed
    simp

namespace MergeProblem

variable {problem : MergeProblem}

theorem getElem?_checklist (arm : Fin problem.checklists.size) :
    problem.checklists.toList[arm.val]? = some (problem.checklist arm) := by
  simp [checklist]

def Led (nodes : Array Node) (index : Nat) : Prop :=
  ∃ (source : Nat) (node : Node), nodes[source]? = some node ∧ ⟨index⟩ ∈ node.successors

theorem Led.kept {before after : Array Node} {index : Nat} (led : Led before index)
    (kept : Kept before after) : Led after index := by
  obtain ⟨source, node, found, member⟩ := led
  exact ⟨source, node, kept source node found, member⟩

/-- What was put into the arena is led to, except for the node of the residual
itself. -/
def Leads (before after : Array Node) (id : NodeId) : Prop :=
  ∀ index, before.size ≤ index → index < after.size → index = id.index ∨ Led after index

section Push

variable {count limit : Nat} {before arena after : Arena count} {node : Node} {id : NodeId}

theorem leads_push
    (led : ∀ index, before.nodes.size ≤ index → index < arena.nodes.size →
      ⟨index⟩ ∈ node.successors ∨ Led arena.nodes index)
    (pushed : arena.push limit node = .ok (id, after)) :
    Leads before.nodes after.nodes id := by
  obtain ⟨_, rfl, rfl⟩ := Arena.push_eq_ok pushed
  intro index fresh inside
  simp only [Array.size_push] at inside
  by_cases isLast : index = arena.nodes.size
  · exact Or.inl isLast
  · refine Or.inr ?_
    rcases led index fresh (by omega) with member | led
    · exact ⟨arena.nodes.size, node, by simp, member⟩
    · exact led.kept (kept_push arena.nodes node)

theorem leads_leaf (leafed : arena.leaf limit node = .ok (id, after)) :
    Leads arena.nodes after.nodes id := by
  rcases Arena.leaf_eq_ok leafed with ⟨rfl, _⟩ | ⟨_, pushed⟩
  · intro index fresh inside
    omega
  · refine leads_push (fun index fresh inside => ?_) pushed
    omega

theorem Leads.finish {state : Residual count} (leads : Leads before.nodes after.nodes id) :
    Leads before.nodes (after.finish state id).nodes id :=
  leads

/-- What was led to or the result before is led to or a successor now. -/
theorem Leads.onward {middle : Array Node} {first : NodeId}
    (leads : Leads before.nodes middle first) (kept : Kept middle arena.nodes)
    (isNext : first ∈ node.successors) {index : Nat} (fresh : before.nodes.size ≤ index)
    (inside : index < middle.size) : ⟨index⟩ ∈ node.successors ∨ Led arena.nodes index := by
  rcases leads index fresh inside with rfl | led
  · exact Or.inl isNext
  · exact Or.inr (led.kept kept)

end Push

variable {state : Residual problem.checklists.size} {arena after : Arena problem.checklists.size}
  {limit : Nat} {id : NodeId}

theorem Builds.leads (builds : problem.Builds limit state arena id after)
    (good : problem.Good arena) : Leads arena.nodes after.nodes id := by
  induction builds with
  | known found =>
      intro index fresh inside
      omega
  | fail _ leafed => exact (leads_leaf leafed).finish
  | take _ _ _ leafed => exact leads_leaf leafed
  | bind _ _ _ leafed pushed =>
      refine (leads_push (fun index fresh inside => ?_) pushed).finish
      exact (leads_leaf leafed).onward (fun _ _ found => found) (by simp [Node.successors]) fresh
        inside
  | @guard _ _ _ _ middle last _ _ _ _ _ _ _ leafed rest pushed ih =>
      have leaf := good.success _ leafed
      have kept := (rest.grown leaf.good).kept
      refine (leads_push (fun index fresh inside => ?_) pushed).finish
      by_cases early : index < middle.nodes.size
      · exact (leads_leaf leafed).onward kept (by simp [Node.successors]) fresh early
      · exact (ih leaf.good).onward (fun _ _ found => found) (by simp [Node.successors])
          (Nat.le_of_not_lt early) inside
  | access _ _ pushed ih =>
      refine (leads_push (fun index fresh inside => ?_) pushed).finish
      exact (ih good).onward (fun _ _ found => found) (by simp [Node.successors]) fresh inside
  | @test _ _ _ _ _ middle last _ _ _ _ _ whenTrue whenFalse pushed ihTrue ihFalse =>
      have grown := whenTrue.grown good
      have kept := (whenFalse.grown grown.good).kept
      refine (leads_push (fun index fresh inside => ?_) pushed).finish
      by_cases early : index < middle.nodes.size
      · exact (ihTrue good).onward kept (by simp [Node.successors]) fresh early
      · exact (ihFalse grown.good).onward (fun _ _ found => found) (by simp [Node.successors])
          (Nat.le_of_not_lt early) inside

def Last (arena : Arena problem.checklists.size) (id : NodeId) : Prop :=
  id.index + 1 = arena.nodes.size

theorem Last.finish (last : Last arena id) : Last (arena.finish state id) id :=
  last

theorem last_push {node : Node} (pushed : arena.push limit node = .ok (id, after)) :
    Last after id := by
  obtain ⟨_, rfl, rfl⟩ := Arena.push_eq_ok pushed
  simp [Last]

theorem last_leaf {node : Node} (leafed : Arena.leaf limit node .empty = .ok (id, after)) :
    Last after id := by
  rcases Arena.leaf_eq_ok leafed with ⟨rfl, found⟩ | ⟨_, pushed⟩
  · simp [Arena.empty] at found
  · exact last_push pushed

theorem Builds.last (builds : problem.Builds limit state .empty id after) : Last after id := by
  cases builds with
  | known found => simp [Arena.empty] at found
  | fail _ leafed => exact (last_leaf leafed).finish
  | take _ _ _ leafed => exact last_leaf leafed
  | bind _ _ _ _ pushed => exact (last_push pushed).finish
  | guard _ _ _ _ pushed => exact (last_push pushed).finish
  | access _ _ pushed => exact (last_push pushed).finish
  | test _ _ _ pushed => exact (last_push pushed).finish

/-- An arena that holds no more than it may, each leaf once, and only nodes that
serve the checklists. -/
structure Shaped (problem : MergeProblem) (limit : Nat) (arena : Arena problem.checklists.size) :
    Prop where
  fits : arena.nodes.size ≤ limit
  leafOnce : ∀ (index other : Nat) (node : Node), arena.nodes[index]? = some node →
    arena.nodes[other]? = some node → node.successors = [] → index = other
  serves : ∀ (index : Nat) (node : Node), arena.nodes[index]? = some node →
    node.Serves problem.checklists.toList arena.nodes

theorem shaped_empty (limit : Nat) : problem.Shaped limit .empty where
  fits := Nat.zero_le limit
  leafOnce := by
    intro index other node found
    simp [Arena.empty] at found
  serves := by
    intro index node found
    simp [Arena.empty] at found

theorem Shaped.push (node : Node) (shaped : problem.Shaped limit arena)
    (once : node.successors = [] → ∀ index : Nat, arena.nodes[index]? ≠ some node)
    (serves : node.Serves problem.checklists.toList arena.nodes)
    (pushed : arena.push limit node = .ok (id, after)) : problem.Shaped limit after := by
  obtain ⟨room, rfl, rfl⟩ := Arena.push_eq_ok pushed
  have kept := kept_push arena.nodes node
  refine ⟨by simpa using Nat.succ_le_of_lt room, ?_, ?_⟩
  · intro index other leaf found foundOther isLeaf
    simp only [Array.getElem?_push] at found foundOther
    split at found <;> split at foundOther
    · omega
    · cases found
      exact absurd foundOther (once isLeaf other)
    · cases foundOther
      exact absurd found (once isLeaf index)
    · exact shaped.leafOnce index other leaf found foundOther isLeaf
  · intro index other found
    rw [Array.getElem?_push] at found
    split at found
    · cases found
      exact serves.kept kept
    · exact (shaped.serves index other found).kept kept

theorem Shaped.leaf (node : Node) (shaped : problem.Shaped limit arena)
    (serves : node.Serves problem.checklists.toList arena.nodes)
    (leafed : arena.leaf limit node = .ok (id, after)) : problem.Shaped limit after := by
  rcases Arena.leaf_eq_ok leafed with ⟨rfl, _⟩ | ⟨missing, pushed⟩
  · exact shaped
  · exact shaped.push node (fun _ => missing) serves pushed

theorem Shaped.success (shaped : problem.Shaped limit arena) (arm : Fin problem.checklists.size)
    (leafed : arena.leaf limit (.success arm (problem.checklist arm).label) = .ok (id, after)) :
    problem.Shaped limit after :=
  shaped.leaf (.success arm _) ⟨_, getElem?_checklist arm, rfl⟩ leafed

theorem Shaped.finish (shaped : problem.Shaped limit arena)
    (state : Residual problem.checklists.size) (id : NodeId) :
    problem.Shaped limit (arena.finish state id) :=
  ⟨shaped.fits, shaped.leafOnce, shaped.serves⟩

theorem Builds.shaped (builds : problem.Builds limit state arena id after)
    (within : state.Within problem) (good : problem.Good arena)
    (shaped : problem.Shaped limit arena) : problem.Shaped limit after := by
  induction builds with
  | known _ => exact shaped
  | fail _ leafed => exact (shaped.leaf .failure trivial leafed).finish _ _
  | take _ _ _ leafed => exact shaped.success _ leafed
  | @bind _ _ arm _ _ _ _ _ _ unguarded _ leafed pushed =>
      refine Shaped.finish ((shaped.success arm leafed).push _ (by simp [Node.successors]) ?_ pushed) _ _
      exact ⟨_, getElem?_checklist arm, rfl, rfl, unguarded.symm, Arena.found_of_leaf leafed, rfl⟩
  | @guard _ _ arm _ _ _ _ _ _ _ _ moved guarded leafed rest pushed ih =>
      have leaf := good.success _ leafed
      have kept := (rest.grown leaf.good).kept
      rw [move_eq_accept moved] at within
      have shapedRest := ih within.tail leaf.good (shaped.success arm leafed)
      refine Shaped.finish (shapedRest.push _ (by simp [Node.successors]) ?_ pushed) _ _
      exact ⟨_, getElem?_checklist arm, rfl, rfl, guarded.symm,
        kept _ _ (Arena.found_of_leaf leafed), rfl⟩
  | access moved _ pushed ih =>
      obtain ⟨isHead, rfl⟩ := move_eq_access moved
      have shapedRest := ih (within.afterAccess _) good shaped
      refine Shaped.finish (shapedRest.push _ (by simp [Node.successors]) ?_ pushed) _ _
      exact within.exists_checklist isHead
  | test moved whenTrue _ pushed ihTrue ihFalse =>
      obtain ⟨isHead, rfl, rfl⟩ := move_eq_test moved
      have grown := whenTrue.grown good
      have shapedTrue := ihTrue (within.afterTest _ true) good shaped
      have shapedRest := ihFalse (within.afterTest _ false) grown.good shapedTrue
      refine Shaped.finish (shapedRest.push _ (by simp [Node.successors]) ?_ pushed) _ _
      exact within.exists_checklist isHead

end MergeProblem

theorem misnumbered?_eq_none_iff {checklists : List Checklist} :
    misnumbered? checklists = none ↔
      ∀ (position : Nat) (checklist : Checklist), checklists[position]? = some checklist →
        checklist.index = position := by
  unfold misnumbered?
  rw [Option.map_eq_none_iff, List.find?_eq_none]
  simp only [Prod.forall, List.mem_zipIdx_iff_getElem?, bne_iff_ne, not_not]
  exact forall_comm

namespace DecisionGraph

/-- What can be said of a built graph without knowing what it was built from. -/
structure WellShaped (checklists : List Checklist) (limit : Nat) (graph : DecisionGraph) : Prop where
  occupied : 0 < graph.size
  fits : graph.size ≤ limit
  descending : ∀ source target, graph.Edge source target → target.index < source.index
  rootLast : graph.root.index + 1 = graph.size
  reached : ∀ id, id.index < graph.size → graph.Reaches graph.root id
  failureOnce : ∀ id other, graph.node? id = some .failure → graph.node? other = some .failure →
    id = other
  successOnce : ∀ id other arm label otherLabel, graph.node? id = some (.success arm label) →
    graph.node? other = some (.success arm otherLabel) → id = other
  numbered : ∀ (arm : Nat) (checklist : Checklist), checklists[arm]? = some checklist →
    checklist.index = arm
  serves : ∀ id node, graph.node? id = some node → node.Serves checklists graph.nodes

/-- Where every node but the root is led to, the root leads to all of them: the
node before, and the one before that, lie ever higher. -/
theorem reaches_of_led {graph : DecisionGraph} (descending : Descending graph.nodes)
    (led : ∀ index, index < graph.size → index = graph.root.index ∨
      MergeProblem.Led graph.nodes index) (id : NodeId) (inside : id.index < graph.size) :
    graph.Reaches graph.root id := by
  induction farEq : graph.size - id.index using Nat.strongRecOn generalizing id with
  | _ far ih =>
  rcases led id.index inside with isRoot | ⟨source, node, found, member⟩
  · rw [NodeId.ext isRoot]
    exact .refl
  · have higher : id.index < source := descending source node found id member
    have sourceInside : source < graph.size := (Array.getElem?_eq_some_iff.mp found).1
    have above := ih (graph.size - source) (by omega) ⟨source⟩ sourceInside rfl
    exact above.tail (edge_of_node found member)

section Built

variable {types : TypeOracle} {options : Options} {table : AccessTable}
  {checklists : List Checklist} {graph : DecisionGraph}

theorem reaches_of_built (built : ofChecklists types options table checklists = .ok graph)
    (id : NodeId) (inside : id.index < graph.size) : graph.Reaches graph.root id := by
  obtain ⟨_, root, arena, made, rfl⟩ := ofChecklists_built built
  have builds := MergeProblem.builds_of_build made
  apply reaches_of_led (builds.grown MergeProblem.good_empty).good.descending _ id inside
  exact fun index inside => builds.leads MergeProblem.good_empty index (Nat.zero_le _) inside

theorem serves_of_built (built : ofChecklists types options table checklists = .ok graph)
    {id : NodeId} {node : Node} (found : graph.node? id = some node) :
    node.Serves checklists graph.nodes := by
  obtain ⟨_, root, arena, made, rfl⟩ := ofChecklists_built built
  have shaped := (MergeProblem.builds_of_build made).shaped (.start _) MergeProblem.good_empty
    (MergeProblem.shaped_empty _)
  exact shaped.serves _ _ found

end Built

/-- Every graph that is built has this shape, over any table, for checklists and
a type oracle that need not make sense. -/
theorem ofChecklists_wellShaped {types : TypeOracle} {options : Options} {table : AccessTable}
    {checklists : List Checklist} {graph : DecisionGraph}
    (built : ofChecklists types options table checklists = .ok graph) :
    graph.WellShaped checklists options.nodeLimit := by
  have reached := reaches_of_built built
  obtain ⟨numbered, root, arena, made, rfl⟩ := ofChecklists_built built
  have builds := MergeProblem.builds_of_build made
  have grown := builds.grown MergeProblem.good_empty
  have shaped := builds.shaped (.start _) MergeProblem.good_empty (MergeProblem.shaped_empty _)
  have last : root.index + 1 = arena.nodes.size := builds.last
  exact {
    occupied := by
      show 0 < arena.nodes.size
      omega
    fits := shaped.fits
    descending := by
      intro source target edge
      obtain ⟨node, found, member⟩ := exists_node_of_edge edge
      exact grown.good.descending _ node found target member
    rootLast := last
    reached := reached
    failureOnce := by
      intro id other found foundOther
      exact NodeId.ext (shaped.leafOnce _ _ _ found foundOther rfl)
    successOnce := by
      intro id other arm label otherLabel found foundOther
      obtain ⟨checklist, isOwn, rfl⟩ := shaped.serves _ _ found
      obtain ⟨otherChecklist, isOther, rfl⟩ := shaped.serves _ _ foundOther
      cases isOwn.symm.trans isOther
      exact NodeId.ext (shaped.leafOnce _ _ _ found foundOther rfl)
    numbered := misnumbered?_eq_none_iff.mp numbered
    serves := fun id node found => shaped.serves _ _ found
  }

/-- One arm with a guard, and one that takes whatever is left. -/
def guardedChecklists : List Checklist :=
  [⟨0, [.test ⟨.root, .nonNull⟩], [⟨⟨0⟩, .root⟩], some ⟨0⟩, ⟨0⟩⟩, ⟨1, [], [], none, ⟨1⟩⟩]

def guardedGraph : DecisionGraph where
  nodes := #[.success 0 ⟨0⟩, .success 1 ⟨1⟩, .bind 0 ⟨0⟩ [⟨⟨0⟩, .root⟩] (some ⟨0⟩) ⟨0⟩ (some ⟨1⟩),
    .test ⟨.root, .nonNull⟩ ⟨2⟩ ⟨1⟩]
  root := ⟨3⟩
  table := .ofInput Hierarchy.object
  armCount := 2

/-- There is room for the four nodes and no more. -/
theorem wellShaped_guardedGraph : guardedGraph.WellShaped guardedChecklists 4 := by
  have built : ofChecklists ⟨fun _ _ => .never, fun _ => true⟩ { nodeLimit := 4 }
      (.ofInput Hierarchy.object) guardedChecklists = .ok guardedGraph := by
    cbv
  exact ofChecklists_wellShaped built

end DecisionGraph

end MatchCompiler
