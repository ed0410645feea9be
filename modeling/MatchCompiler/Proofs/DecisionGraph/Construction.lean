import MatchCompiler.DecisionTree
import MatchCompiler.Proofs.DecisionGraph.Building
import MatchCompiler.Proofs.DecisionGraph.Order

/-!
# Graphs unfold to their trees

A node is put behind the nodes that it leads to, so a built graph has no cycle,
and what hangs from the node of a residual is the tree of the residual, whether
the node was built for it or met again.
-/

set_option autoImplicit false

namespace MatchCompiler

namespace MergeProblem

variable {problem : MergeProblem} {state others next onTrue onFalse : Residual problem.checklists.size}
  {arm : Fin problem.checklists.size}

theorem tree_of_fail (moved : problem.move state = .fail) : problem.tree state = .failure := by
  rw [tree]
  split <;> simp_all

theorem tree_of_access {made : Access} (moved : problem.move state = .access made next) :
    problem.tree state = .access made (problem.tree next) := by
  rw [tree]
  split <;> simp_all

theorem tree_of_test {asked : Test} (moved : problem.move state = .test asked onTrue onFalse) :
    problem.tree state = .test asked (problem.tree onTrue) (problem.tree onFalse) := by
  rw [tree]
  split <;> simp_all

theorem tree_of_accept (moved : problem.move state = .accept arm others) :
    problem.tree state =
      match (problem.checklist arm).guard with
      | none =>
          if (problem.checklist arm).bindings.isEmpty then
            .success arm (problem.checklist arm).label
          else
            .bind arm (problem.checklist arm).label (problem.checklist arm).bindings none
              (.success arm (problem.checklist arm).label) none
      | some guard =>
          .bind arm (problem.checklist arm).label (problem.checklist arm).bindings (some guard)
            (.success arm (problem.checklist arm).label) (some (problem.tree others)) := by
  rw [tree]
  split
  · rename_i other
    cases moved.symm.trans other
  · rename_i other
    cases moved.symm.trans other
    rfl
  · rename_i other
    cases moved.symm.trans other
  · rename_i other
    cases moved.symm.trans other

end MergeProblem

/-- Every node found in one array is found at its place in the other one. -/
def Kept (before after : Array Node) : Prop :=
  ∀ (index : Nat) (node : Node), before[index]? = some node → after[index]? = some node

theorem Kept.trans {before middle after : Array Node} (front : Kept before middle)
    (back : Kept middle after) : Kept before after :=
  fun index node found => back index node (front index node found)

theorem kept_push (nodes : Array Node) (node : Node) : Kept nodes (nodes.push node) := by
  intro index other found
  have inside := (Array.getElem?_eq_some_iff.mp found).1
  rw [Array.getElem?_push, if_neg (Nat.ne_of_lt inside)]
  exact found

theorem Unfolds.kept {before after : Array Node} {id : NodeId} {tree : DecisionTree}
    (unfolds : Unfolds before id tree) (kept : Kept before after) : Unfolds after id tree := by
  induction unfolds with
  | access id next made tree found _ ih => exact .access id next made tree (kept _ _ found) ih
  | test id onTrue onFalse asked yes no found _ _ ihTrue ihFalse =>
      exact .test id onTrue onFalse asked yes no (kept _ _ found) ihTrue ihFalse
  | bind id accepted arm label bindings guard yes found _ ih =>
      exact .bind id accepted arm label bindings guard yes (kept _ _ found) ih
  | guarded id accepted rejected arm label bindings guard yes no found _ _ ihYes ihNo =>
      exact .guarded id accepted rejected arm label bindings guard yes no (kept _ _ found) ihYes ihNo
  | success id arm label found => exact .success id arm label (kept _ _ found)
  | failure id found => exact .failure id (kept _ _ found)

theorem Unfolds.inside {nodes : Array Node} {id : NodeId} {tree : DecisionTree}
    (unfolds : Unfolds nodes id tree) : id.index < nodes.size := by
  cases unfolds with
  | access _ _ _ _ found _ => exact (Array.getElem?_eq_some_iff.mp found).1
  | test _ _ _ _ _ _ found _ _ => exact (Array.getElem?_eq_some_iff.mp found).1
  | bind _ _ _ _ _ _ _ found _ => exact (Array.getElem?_eq_some_iff.mp found).1
  | guarded _ _ _ _ _ _ _ _ _ found _ _ => exact (Array.getElem?_eq_some_iff.mp found).1
  | success _ _ _ found => exact (Array.getElem?_eq_some_iff.mp found).1
  | failure _ found => exact (Array.getElem?_eq_some_iff.mp found).1

/-- Every edge leads to a node before its source. -/
def Descending (nodes : Array Node) : Prop :=
  ∀ (index : Nat) (node : Node), nodes[index]? = some node →
    ∀ next ∈ node.successors, next.index < index

theorem descending_iff {nodes : Array Node} :
    Descending nodes ↔ ∀ index : Fin nodes.size, ∀ next ∈ nodes[index.val].successors,
      next.index < index.val := by
  constructor
  · intro descending index
    exact descending index _ (Array.getElem?_eq_getElem index.isLt)
  · intro all index node found
    obtain ⟨inside, rfl⟩ := Array.getElem?_eq_some_iff.mp found
    exact all ⟨index, inside⟩

instance (nodes : Array Node) : Decidable (Descending nodes) :=
  decidable_of_iff' _ descending_iff

theorem Descending.push {nodes : Array Node} (descending : Descending nodes) {node : Node}
    (below : ∀ next ∈ node.successors, next.index < nodes.size) : Descending (nodes.push node) := by
  intro index other found
  rw [Array.getElem?_push] at found
  split at found
  · rename_i isLast
    obtain rfl := Option.some.inj found
    rw [isLast]
    exact below
  · exact descending index other found

theorem DecisionGraph.acyclic_of_descending {graph : DecisionGraph}
    (descending : Descending graph.nodes) : graph.Acyclic := by
  have falls : ∀ {source target}, Relation.TransGen graph.Edge source target →
      target.index < source.index := by
    have step : ∀ {source target}, graph.Edge source target → target.index < source.index := by
      intro source target edge
      obtain ⟨node, found, member⟩ := exists_node_of_edge edge
      exact descending _ node found target member
    intro source target path
    induction path with
    | single edge => exact step edge
    | tail _ edge ih => exact Nat.lt_trans (step edge) ih
  exact fun id _ cycle => Nat.lt_irrefl _ (falls cycle)

namespace MergeProblem

variable {problem : MergeProblem}

/-- An arena in which every finished residual has a node for its tree. -/
structure Good (problem : MergeProblem) (arena : Arena problem.checklists.size) : Prop where
  descending : Descending arena.nodes
  finished : ∀ state id, arena.finished[state]? = some id →
    Unfolds arena.nodes id (problem.tree state)

/-- A node with a tree below it, put into an arena that keeps what it has. -/
structure Grown (problem : MergeProblem) (before after : Arena problem.checklists.size)
    (id : NodeId) (tree : DecisionTree) : Prop where
  good : problem.Good after
  kept : Kept before.nodes after.nodes
  unfolds : Unfolds after.nodes id tree

variable {before arena after : Arena problem.checklists.size} {limit : Nat} {node : Node}
  {id : NodeId} {tree : DecisionTree}

theorem good_empty : problem.Good .empty where
  descending := by
    intro index node found
    simp [Arena.empty] at found
  finished := by
    intro state id found
    simp [Arena.empty] at found

theorem Good.push (good : problem.Good arena) (kept : Kept before.nodes arena.nodes)
    (below : ∀ next ∈ node.successors, next.index < arena.nodes.size)
    (unfolds : ∀ nodes, Kept arena.nodes nodes → nodes[arena.nodes.size]? = some node →
      Unfolds nodes ⟨arena.nodes.size⟩ tree)
    (pushed : arena.push limit node = .ok (id, after)) : problem.Grown before after id tree := by
  obtain ⟨_, rfl, rfl⟩ := Arena.push_eq_ok pushed
  have grown := kept_push arena.nodes node
  refine ⟨⟨good.descending.push below, ?_⟩, kept.trans grown,
    unfolds _ grown (by rw [Array.getElem?_push, if_pos rfl])⟩
  exact fun state other found => (good.finished state other found).kept grown

theorem Good.leaf (good : problem.Good arena) (isLeaf : node.successors = [])
    (unfolds : ∀ nodes other, nodes[other.index]? = some node → Unfolds nodes other tree)
    (leafed : arena.leaf limit node = .ok (id, after)) : problem.Grown arena after id tree := by
  rcases Arena.leaf_eq_ok leafed with ⟨rfl, found⟩ | ⟨_, pushed⟩
  · exact ⟨good, fun _ _ found => found, unfolds _ _ found⟩
  · refine good.push (fun _ _ found => found) ?_ (fun nodes _ found => unfolds nodes _ found) pushed
    rw [isLeaf]
    simp

theorem Grown.finish {state : Residual problem.checklists.size}
    (grown : problem.Grown before after id (problem.tree state)) :
    problem.Grown before (after.finish state id) id (problem.tree state) := by
  refine ⟨⟨grown.good.descending, ?_⟩, grown.kept, grown.unfolds⟩
  intro other otherId found
  simp only [Arena.finish, Std.HashMap.getElem?_insert] at found
  split at found
  · rename_i same
    obtain rfl := Option.some.inj found
    rw [← eq_of_beq same]
    exact grown.unfolds
  · exact grown.good.finished other otherId found

section Moves

variable {state others next onTrue onFalse : Residual problem.checklists.size}
  {arm : Fin problem.checklists.size} {middle : Arena problem.checklists.size}

theorem Good.fail (good : problem.Good arena) (moved : problem.move state = .fail)
    (leafed : arena.leaf limit .failure = .ok (id, after)) :
    problem.Grown arena (after.finish state id) id (problem.tree state) := by
  apply Grown.finish
  rw [tree_of_fail moved]
  exact good.leaf rfl (fun nodes other found => .failure other found) leafed

theorem Good.success (good : problem.Good arena) (arm : Fin problem.checklists.size)
    (leafed : arena.leaf limit (.success arm (problem.checklist arm).label) = .ok (id, after)) :
    problem.Grown arena after id (.success arm (problem.checklist arm).label) :=
  good.leaf rfl (fun _ other found => .success other _ _ found) leafed

theorem Grown.bind {success : NodeId} (moved : problem.move state = .accept arm others)
    (unguarded : (problem.checklist arm).guard = none)
    (bound : ¬(problem.checklist arm).bindings.isEmpty)
    (leaf : problem.Grown before middle success (.success arm (problem.checklist arm).label))
    (pushed : middle.push limit (.bind arm (problem.checklist arm).label
      (problem.checklist arm).bindings none success none) = .ok (id, after)) :
    problem.Grown before (after.finish state id) id (problem.tree state) := by
  apply Grown.finish
  rw [tree_of_accept moved]
  simp only [unguarded, if_neg bound]
  refine leaf.good.push leaf.kept ?_ ?_ pushed
  · intro target member
    simp only [Node.successors, Option.toList_none, List.mem_singleton] at member
    rw [member]
    exact leaf.unfolds.inside
  · exact fun nodes kept found => .bind _ success _ _ _ _ _ found (leaf.unfolds.kept kept)

theorem Grown.guard {success rejected : NodeId} {condition : Guard}
    {last : Arena problem.checklists.size} (moved : problem.move state = .accept arm others)
    (guarded : (problem.checklist arm).guard = some condition)
    (leaf : problem.Grown before middle success (.success arm (problem.checklist arm).label))
    (rest : problem.Grown middle last rejected (problem.tree others))
    (pushed : last.push limit (.bind arm (problem.checklist arm).label
      (problem.checklist arm).bindings (some condition) success (some rejected)) =
        .ok (id, after)) :
    problem.Grown before (after.finish state id) id (problem.tree state) := by
  apply Grown.finish
  rw [tree_of_accept moved]
  simp only [guarded]
  have leafKept := leaf.unfolds.kept rest.kept
  refine rest.good.push (leaf.kept.trans rest.kept) ?_ ?_ pushed
  · intro target member
    simp only [Node.successors, Option.toList_some, List.mem_cons, List.not_mem_nil,
      or_false] at member
    rcases member with rfl | rfl
    · exact leafKept.inside
    · exact rest.unfolds.inside
  · exact fun nodes kept found => .guarded _ success rejected _ _ _ _ _ _ found
      (leafKept.kept kept) (rest.unfolds.kept kept)

theorem Grown.access {made : Access} {below : NodeId}
    (moved : problem.move state = .access made next)
    (rest : problem.Grown before middle below (problem.tree next))
    (pushed : middle.push limit (.access made below) = .ok (id, after)) :
    problem.Grown before (after.finish state id) id (problem.tree state) := by
  apply Grown.finish
  rw [tree_of_access moved]
  refine rest.good.push rest.kept ?_ ?_ pushed
  · intro target member
    simp only [Node.successors, List.mem_singleton] at member
    rw [member]
    exact rest.unfolds.inside
  · exact fun nodes kept found => .access _ below _ _ found (rest.unfolds.kept kept)

theorem Grown.test {asked : Test} {yes no : NodeId} {last : Arena problem.checklists.size}
    (moved : problem.move state = .test asked onTrue onFalse)
    (yesGrown : problem.Grown before middle yes (problem.tree onTrue))
    (noGrown : problem.Grown middle last no (problem.tree onFalse))
    (pushed : last.push limit (.test asked yes no) = .ok (id, after)) :
    problem.Grown before (after.finish state id) id (problem.tree state) := by
  apply Grown.finish
  rw [tree_of_test moved]
  have yesKept := yesGrown.unfolds.kept noGrown.kept
  refine noGrown.good.push (yesGrown.kept.trans noGrown.kept) ?_ ?_ pushed
  · intro target member
    simp only [Node.successors, List.mem_cons, List.not_mem_nil, or_false] at member
    rcases member with rfl | rfl
    · exact yesKept.inside
    · exact noGrown.unfolds.inside
  · exact fun nodes kept found => .test _ yes no _ _ _ found
      (yesKept.kept kept) (noGrown.unfolds.kept kept)

theorem Grown.take (moved : problem.move state = .accept arm others)
    (unguarded : (problem.checklist arm).guard = none)
    (unbound : (problem.checklist arm).bindings.isEmpty)
    (leaf : problem.Grown before after id (.success arm (problem.checklist arm).label)) :
    problem.Grown before after id (problem.tree state) := by
  rw [tree_of_accept moved]
  simp only [unguarded, if_pos unbound]
  exact leaf

/-- What is built for a residual unfolds to the tree of the residual. -/
theorem Builds.grown (builds : problem.Builds limit state arena id after)
    (good : problem.Good arena) : problem.Grown arena after id (problem.tree state) := by
  induction builds with
  | known found => exact ⟨good, fun _ _ found => found, good.finished _ _ found⟩
  | fail moved leafed => exact good.fail moved leafed
  | take moved unguarded unbound leafed =>
      exact .take moved unguarded unbound (good.success _ leafed)
  | bind moved unguarded bound leafed pushed =>
      exact .bind moved unguarded bound (good.success _ leafed) pushed
  | guard moved guarded leafed _ pushed ih =>
      have leaf := good.success _ leafed
      exact .guard moved guarded leaf (ih leaf.good) pushed
  | access moved _ pushed ih => exact .access moved (ih good) pushed
  | test moved _ _ pushed ihTrue ihFalse =>
      have whenTrue := ihTrue good
      exact .test moved whenTrue (ihFalse whenTrue.good) pushed

end Moves

end MergeProblem

namespace DecisionGraph

variable {types : TypeOracle} {options : Options} {table : AccessTable}
  {checklists : List Checklist} {graph : DecisionGraph}

theorem ofChecklists_built (built : ofChecklists types options table checklists = .ok graph) :
    misnumbered? checklists = none ∧ ∃ root arena,
      (MergeProblem.mk types options.selection table checklists.toArray).build options.nodeLimit
        (MergeProblem.mk types options.selection table checklists.toArray).start .empty =
          .ok (root, arena) ∧ graph = ⟨arena.nodes, root, table, checklists.length⟩ := by
  unfold ofChecklists at built
  split at built
  · simp [throw, throwThe, MonadExceptOf.throw, bind, Except.bind] at built
  · rename_i accepted
    have numbered : misnumbered? checklists = none := by
      cases refused : misnumbered? checklists with
      | none => rfl
      | some entry => exact absurd refused (accepted entry.1 entry.2)
    simp only [bind_eq_ok, pure_eq_ok] at built
    obtain ⟨⟨root, arena⟩, made, rfl⟩ := built
    exact ⟨numbered, root, arena, made, rfl⟩

theorem ofChecklists_eq_ok (built : ofChecklists types options table checklists = .ok graph) :
    misnumbered? checklists = none ∧ graph.table = table ∧ graph.armCount = checklists.length ∧
      Descending graph.nodes ∧
      Unfolds graph.nodes graph.root
        ((MergeProblem.mk types options.selection table checklists.toArray).tree
          (MergeProblem.mk types options.selection table checklists.toArray).start) := by
  obtain ⟨numbered, root, arena, made, rfl⟩ := ofChecklists_built built
  have grown := (MergeProblem.builds_of_build made).grown MergeProblem.good_empty
  exact ⟨numbered, rfl, rfl, grown.good.descending, grown.unfolds⟩

end DecisionGraph

end MatchCompiler
