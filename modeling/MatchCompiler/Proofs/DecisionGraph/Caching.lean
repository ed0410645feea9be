import MatchCompiler.DecisionGraph.Caching
import MatchCompiler.Proofs.DecisionGraph.Recursion
import MatchCompiler.Proofs.Register

/-!
# Caches do not show

A builder with a memo and a map of leaves makes the nodes that a build without
them makes, and returns the same ones. What hangs from a node that it returns is the
tree of the residual, from the moment at which it returns the node. Only a leaf is
ever returned for different residuals.
-/

set_option autoImplicit false

namespace MatchCompiler

/-! ## Two computations in step -/

/-- Both computations stop with the same error, or both come to results, of a kind. -/
def Alongside {ε α β : Type} (kind : α → β → Prop) : Except ε α → Except ε β → Prop
  | .ok first, .ok second => kind first second
  | .error first, .error second => first = second
  | _, _ => False

namespace Alongside

variable {ε α β γ δ : Type} {kind : α → β → Prop} {onward : γ → δ → Prop} {first : Except ε α}
  {second : Except ε β}

theorem bind {next : α → Except ε γ} {next' : β → Except ε δ} (both : Alongside kind first second)
    (behind : ∀ result result', kind result result' → Alongside onward (next result) (next' result')) :
    Alongside onward (first >>= next) (second >>= next') := by
  cases first with
  | error error =>
      cases second with
      | error other => exact both
      | ok result => exact both.elim
  | ok result =>
      cases second with
      | error other => exact both.elim
      | ok result' => exact behind result result' both

theorem of_ok {result : α} (both : Alongside kind (.ok result) second) :
    ∃ result', second = .ok result' ∧ kind result result' := by
  cases second with
  | error other => exact both.elim
  | ok result' => exact ⟨result', rfl, both⟩

end Alongside

/-! ## Leaves and moments -/

theorem Unfolds.unique {nodes : Array Node} {id : NodeId} {tree other : DecisionTree}
    (unfolds : Unfolds nodes id tree) (also : Unfolds nodes id other) : tree = other := by
  induction unfolds generalizing other with
  | access | test | bind | guarded | success | failure => cases also <;> grind

def Leaf.tree : Leaf → DecisionTree
  | .success arm label => .success arm label
  | .failure => .failure

theorem Leaf.unfolds {nodes : Array Node} {id : NodeId} (leaf : Leaf)
    (found : nodes[id.index]? = some leaf.node) : Unfolds nodes id leaf.tree := by
  cases leaf with
  | success arm label => exact .success id arm label found
  | failure => exact .failure id found

theorem Leaf.successors_node (leaf : Leaf) : leaf.node.successors = [] := by
  cases leaf <;> rfl

theorem Leaf.node_injective : Function.Injective Leaf.node := by
  intro leaf other same
  cases leaf <;> cases other <;> simp_all [Leaf.node]

section Moments

variable {count : Nat} {events : List (BuildEvent count)} {moment later : Nat}

theorem kept_nodesAfter (order : moment ≤ later) :
    Kept (nodesAfter events moment) (nodesAfter events later) := by
  have grows : events.take moment <+: events.take later := List.take_prefix_take_left order
  obtain ⟨more, isMore⟩ := grows.filterMap BuildEvent.node?
  intro index node found
  unfold nodesAfter at *
  rw [← isMore]
  rw [List.getElem?_toArray] at found ⊢
  rwa [List.getElem?_append_left (List.getElem?_eq_some_iff.mp found).1]

theorem nodesAfter_snoc (event : BuildEvent count) (inside : moment ≤ events.length) :
    nodesAfter (events ++ [event]) moment = nodesAfter events moment := by
  unfold nodesAfter
  rw [List.take_append_of_le_length inside]

theorem nodesAfter_snoc_length (event : BuildEvent count) :
    nodesAfter (events ++ [event]) (events ++ [event]).length =
      nodesAfter events events.length ++ event.node?.toArray := by
  unfold nodesAfter
  rw [List.take_length, List.take_length, List.filterMap_append, List.append_toArray]
  cases event <;> rfl

end Moments

namespace Arena

variable {count : Nat} {arena : Arena count} {node : Node}

theorem leaf_of_missing (limit : Nat) (missing : ∀ index : Nat, arena.nodes[index]? ≠ some node) :
    arena.leaf limit node = arena.push limit node := by
  unfold leaf
  split
  · rename_i index isFirst
    obtain ⟨inside, isNode, _⟩ := Array.findIdx?_eq_some_iff_getElem.mp isFirst
    refine absurd ?_ (missing index)
    rw [Array.getElem?_eq_getElem inside, beq_iff_eq.mp isNode]
  · rfl

theorem exists_leaf_of_found (limit : Nat) {index : Nat} (found : arena.nodes[index]? = some node) :
    ∃ id, arena.leaf limit node = .ok (id, arena) ∧ arena.nodes[id.index]? = some node := by
  unfold leaf
  split
  · rename_i first isFirst
    obtain ⟨inside, isNode, _⟩ := Array.findIdx?_eq_some_iff_getElem.mp isFirst
    refine ⟨⟨first⟩, rfl, ?_⟩
    rw [Array.getElem?_eq_getElem inside, beq_iff_eq.mp isNode]
  · rename_i missing
    have refused := Array.findIdx?_eq_none_iff.mp missing node (Array.mem_of_getElem? found)
    simp at refused

end Arena

/-! ## What a builder writes down -/

namespace MergeProblem

variable {problem : MergeProblem} {state other : Residual problem.checklists.size} {id : NodeId}
  {arena before : Arena problem.checklists.size} {builder : Builder problem.checklists.size}
  {limit : Nat} {node : Node} {tree : DecisionTree}

/-- The events of a builder tell its nodes, and its memo has answers that it gave.
A residual was answered with its tree, and no two residuals with one node that is
not a leaf. -/
structure Logged (problem : MergeProblem) (builder : Builder problem.checklists.size) : Prop where
  stored : nodesAfter builder.events builder.events.length = builder.nodes
  answered : ∀ {moment : Nat} {state id}, builder.events[moment]? = some (.answered state id) →
    Unfolds (nodesAfter builder.events moment) id (problem.tree state)
  remembered : ∀ {state id}, builder.memo[state]? = some id →
    .answered state id ∈ builder.events
  apart : ∀ {state other id}, .answered state id ∈ builder.events →
    .answered other id ∈ builder.events →
      state = other ∨ ∃ leaf : Leaf, builder.nodes[id.index]? = some leaf.node

namespace Logged

theorem empty : problem.Logged .empty where
  stored := rfl
  answered := by
    intro moment state id found
    simp [Builder.empty] at found
  remembered := by
    intro state id known
    simp [Builder.empty] at known
  apart := by
    intro state other id answered
    simp [Builder.empty] at answered

theorem unfolds_later (logged : problem.Logged builder) {moment later : Nat}
    (answered : builder.events[moment]? = some (.answered state id)) (order : moment ≤ later) :
    Unfolds (nodesAfter builder.events later) id (problem.tree state) :=
  (logged.answered answered).kept (kept_nodesAfter order)

theorem unfolds (logged : problem.Logged builder)
    (answered : .answered state id ∈ builder.events) :
    Unfolds builder.nodes id (problem.tree state) := by
  obtain ⟨moment, isMoment⟩ := List.getElem?_of_mem answered
  have inside := (List.getElem?_eq_some_iff.mp isMoment).1
  rw [← logged.stored]
  exact logged.unfolds_later isMoment (Nat.le_of_lt inside)

theorem store (logged : problem.Logged builder) (node : Node) :
    problem.Logged (builder.store node) where
  stored := by
    rw [Builder.store, nodesAfter_snoc_length, logged.stored]
    rfl
  answered := by
    intro moment state id found
    rcases getElem?_snoc_eq_some found with before | ⟨_, isNew⟩
    · have inside := (List.getElem?_eq_some_iff.mp before).1
      rw [Builder.store, nodesAfter_snoc _ (Nat.le_of_lt inside)]
      exact logged.answered before
    · contradiction
  remembered := fun known => List.mem_append_left _ (logged.remembered known)
  apart := by
    intro state other id answered also
    have answered : .answered state id ∈ builder.events := by simpa [Builder.store] using answered
    have also : .answered other id ∈ builder.events := by simpa [Builder.store] using also
    refine (logged.apart answered also).imp_right ?_
    rintro ⟨leaf, found⟩
    exact ⟨leaf, kept_push _ node _ _ found⟩

/-- An answer is written down if it is right, and no other residual has it, or it is a
leaf. -/
theorem answer (logged : problem.Logged builder)
    (unfolds : Unfolds builder.nodes id (problem.tree state))
    (single : ∀ {other}, .answered other id ∈ builder.events →
      state = other ∨ ∃ leaf : Leaf, builder.nodes[id.index]? = some leaf.node) :
    problem.Logged (builder.answer state id) where
  stored := by
    rw [Builder.answer, nodesAfter_snoc_length, logged.stored]
    exact Array.append_empty
  answered := by
    intro moment other otherId found
    rcases getElem?_snoc_eq_some found with before | ⟨rfl, isNew⟩
    · have inside := (List.getElem?_eq_some_iff.mp before).1
      rw [Builder.answer, nodesAfter_snoc _ (Nat.le_of_lt inside)]
      exact logged.answered before
    · obtain ⟨rfl, rfl⟩ := BuildEvent.answered.inj isNew
      rw [Builder.answer, nodesAfter_snoc _ (Nat.le_refl _), logged.stored]
      exact unfolds
  remembered := fun known => List.mem_append_left _ (logged.remembered known)
  apart := by
    have isNew : ∀ {first otherId}, .answered first otherId ∈ builder.events ++ [.answered state id] →
        .answered first otherId ∈ builder.events ∨ first = state ∧ otherId = id := by
      intro first otherId answered
      simpa using answered
    intro first second otherId answered also
    rcases isNew answered with firstBefore | ⟨rfl, rfl⟩
    · rcases isNew also with secondBefore | ⟨rfl, rfl⟩
      · exact logged.apart firstBefore secondBefore
      · exact (single firstBefore).imp_left Eq.symm
    · rcases isNew also with secondBefore | ⟨rfl, _⟩
      · exact single secondBefore
      · exact Or.inl rfl

theorem repeated (logged : problem.Logged builder) (known : builder.memo[state]? = some id) :
    problem.Logged (builder.answer state id) := by
  have answered := logged.remembered known
  exact logged.answer (logged.unfolds answered) fun also => logged.apart answered also

theorem conclude (logged : problem.Logged builder)
    (unfolds : Unfolds builder.nodes id (problem.tree state))
    (single : ∀ {other}, .answered other id ∈ builder.events →
      state = other ∨ ∃ leaf : Leaf, builder.nodes[id.index]? = some leaf.node) :
    problem.Logged (builder.conclude state id) := by
  obtain ⟨stored, answered, remembered, apart⟩ := logged.answer unfolds single
  refine ⟨stored, answered, ?_, apart⟩
  intro other otherId known
  simp only [Builder.conclude, Std.HashMap.getElem?_insert] at known
  split at known
  · rename_i same
    obtain rfl := eq_of_beq same
    obtain rfl := Option.some.inj known
    exact List.mem_append_right _ (List.mem_singleton.mpr rfl)
  · exact remembered known

theorem conclude_store (logged : problem.Logged builder)
    (unfolds : Unfolds (builder.store node).nodes ⟨builder.nodes.size⟩ (problem.tree state)) :
    problem.Logged ((builder.store node).conclude state ⟨builder.nodes.size⟩) := by
  refine (logged.store node).conclude unfolds fun {other} answered => ?_
  have before : .answered other ⟨builder.nodes.size⟩ ∈ builder.events := by
    simpa [Builder.store] using answered
  exact absurd (logged.unfolds before).inside (Nat.lt_irrefl _)

end Logged

/-! ## With caches and without -/

def TakesAt (problem : MergeProblem) (nodes : Array Node)
    (state : Residual problem.checklists.size) (id : NodeId) : Prop :=
  ∃ arm others, problem.move state = .accept arm others ∧ (problem.checklist arm).guard = none ∧
    (problem.checklist arm).bindings.isEmpty = true ∧
      nodes[id.index]? = some (.success arm (problem.checklist arm).label)

/-- A builder and an arena in the same place: the memo has what is finished, and the
residuals that take an arm at once, and the leaves are those among the nodes. -/
structure Mirrors (problem : MergeProblem) (arena : Arena problem.checklists.size)
    (builder : Builder problem.checklists.size) : Prop where
  nodes : builder.nodes = arena.nodes
  memo : ∀ {state : Residual problem.checklists.size} {id : NodeId},
    arena.finished[state]? = some id → builder.memo[state]? = some id
  known : ∀ {state : Residual problem.checklists.size} {id : NodeId},
    builder.memo[state]? = some id →
      arena.finished[state]? = some id ∨ problem.TakesAt arena.nodes state id
  leaves : ∀ {leaf : Leaf} {id : NodeId}, builder.leaves[leaf]? = some id ↔
    arena.nodes[id.index]? = some leaf.node

theorem TakesAt.kept {nodes after : Array Node} (takes : problem.TakesAt nodes state id)
    (kept : Kept nodes after) : problem.TakesAt after state id := by
  obtain ⟨arm, others, moved, unguarded, unbound, found⟩ := takes
  exact ⟨arm, others, moved, unguarded, unbound, kept _ _ found⟩

namespace Mirrors

theorem empty : problem.Mirrors .empty .empty where
  nodes := rfl
  memo := by
    intro state id finished
    simp [Arena.empty] at finished
  known := by
    intro state id known
    simp [Builder.empty] at known
  leaves := by
    intro leaf id
    simp [Arena.empty, Builder.empty]

theorem leaf_of_found (mirrors : problem.Mirrors arena builder) (leaf : Leaf)
    (found : arena.nodes[id.index]? = some leaf.node) (limit : Nat) :
    arena.leaf limit leaf.node = .ok (id, arena) := by
  obtain ⟨first, leafed, foundFirst⟩ := Arena.exists_leaf_of_found limit found
  have sameId := (mirrors.leaves.mpr foundFirst).symm.trans (mirrors.leaves.mpr found)
  rw [leafed, Option.some.inj sameId]

theorem store (mirrors : problem.Mirrors arena builder) (inner : node.successors ≠ []) :
    problem.Mirrors { arena with nodes := arena.nodes.push node } (builder.store node) where
  nodes := congrArg (·.push node) mirrors.nodes
  memo := mirrors.memo
  known := fun known => (mirrors.known known).imp_right fun takes => takes.kept (kept_push _ node)
  leaves := by
    intro leaf id
    dsimp only [Builder.store]
    rw [mirrors.leaves, Array.getElem?_push]
    split
    · rename_i isNew
      refine iff_of_false ?_ fun same => inner ?_
      · rw [isNew]
        simp
      · rw [Option.some.inj same, leaf.successors_node]
    · exact Iff.rfl

theorem store_leaf (mirrors : problem.Mirrors arena builder) {leaf : Leaf}
    (missing : builder.leaves[leaf]? = none) :
    problem.Mirrors { arena with nodes := arena.nodes.push leaf.node }
      { builder.store leaf.node with
        leaves := builder.leaves.insert leaf ⟨arena.nodes.size⟩ } where
  nodes := congrArg (·.push leaf.node) mirrors.nodes
  memo := mirrors.memo
  known := fun known =>
    (mirrors.known known).imp_right fun takes => takes.kept (kept_push _ leaf.node)
  leaves := by
    intro other id
    rw [Std.HashMap.getElem?_insert, Array.getElem?_push]
    by_cases isLast : id.index = arena.nodes.size
    · have outside : builder.leaves[other]? ≠ some id := by
        intro known
        have found := mirrors.leaves.mp known
        rw [isLast] at found
        simp at found
      obtain rfl : id = ⟨arena.nodes.size⟩ := congrArg NodeId.mk isLast
      simp [outside, Leaf.node_injective.eq_iff]
    · have isOther : NodeId.mk arena.nodes.size ≠ id :=
        fun same => isLast (congrArg NodeId.index same.symm)
      rw [if_neg isLast, ← mirrors.leaves]
      split
      · rename_i same
        obtain rfl := eq_of_beq same
        simp [missing, isOther]
      · exact Iff.rfl

theorem finish (mirrors : problem.Mirrors arena builder) :
    problem.Mirrors (arena.finish state id) (builder.conclude state id) where
  nodes := mirrors.nodes
  memo := by
    intro other otherId finished
    simp only [Arena.finish, Builder.conclude, Std.HashMap.getElem?_insert] at finished ⊢
    split at finished
    · rwa [if_pos ‹_›]
    · rw [if_neg ‹_›]
      exact mirrors.memo finished
  known := by
    intro other otherId known
    simp only [Arena.finish, Builder.conclude, Std.HashMap.getElem?_insert] at known ⊢
    split at known
    · exact Or.inl (by rwa [if_pos ‹_›])
    · rw [if_neg ‹_›]
      exact mirrors.known known
  leaves := mirrors.leaves

theorem take (mirrors : problem.Mirrors arena builder) (missing : arena.finished[state]? = none)
    (takes : problem.TakesAt arena.nodes state id) :
    problem.Mirrors arena (builder.conclude state id) where
  nodes := mirrors.nodes
  memo := by
    intro other otherId finished
    simp only [Builder.conclude, Std.HashMap.getElem?_insert]
    split
    · rename_i same
      rw [← eq_of_beq same, missing] at finished
      contradiction
    · exact mirrors.memo finished
  known := by
    intro other otherId known
    simp only [Builder.conclude, Std.HashMap.getElem?_insert] at known
    split at known
    · rename_i same
      obtain rfl := eq_of_beq same
      obtain rfl := Option.some.inj known
      exact Or.inr takes
    · exact mirrors.known known
  leaves := mirrors.leaves

/-- What the memo has, a build without it comes to as well, and changes nothing. -/
theorem build_of_known (mirrors : problem.Mirrors arena builder)
    (known : builder.memo[state]? = some id) (limit : Nat) :
    problem.build limit state arena = .ok (id, arena) := by
  rw [build_eq_buildBy]
  unfold buildBy
  cases finished : arena.finished[state]? with
  | some other =>
      obtain rfl := Option.some.inj (known.symm.trans (mirrors.memo finished))
      rfl
  | none =>
      rcases mirrors.known known with isFinished | ⟨arm, others, moved, unguarded, unbound, found⟩
      · rw [finished] at isFinished
        contradiction
      · have leafed := mirrors.leaf_of_found (.success arm _) found limit
        unfold Leaf.node at leafed
        simp only [moved, leafed, ok_bind, unguarded, if_pos unbound]
        rfl

end Mirrors

/-! ## One build beside the other -/

/-- Both builds have come to one node, and what hangs from it is the tree. -/
structure Echoes (problem : MergeProblem) (before : Arena problem.checklists.size)
    (tree : DecisionTree) (made : NodeId × Arena problem.checklists.size)
    (noted : NodeId × Builder problem.checklists.size) : Prop where
  same : noted.1 = made.1
  grown : problem.Grown before made.2 made.1 tree
  mirrors : problem.Mirrors made.2 noted.2
  logged : problem.Logged noted.2

theorem push_alongside (same : builder.nodes = arena.nodes) (node : Node) (limit : Nat) :
    Alongside (fun made noted => arena.push limit node = .ok made ∧
        made = (⟨arena.nodes.size⟩, { arena with nodes := arena.nodes.push node }) ∧
        noted = (⟨arena.nodes.size⟩, builder.store node))
      (arena.push limit node) (builder.push limit node) := by
  unfold Arena.push Builder.push
  rw [same]
  by_cases full : limit ≤ arena.nodes.size
  · rw [if_pos full, if_pos full]
    exact rfl
  · rw [if_neg full, if_neg full]
    by_cases numbered : arena.nodes.size ≤ 0xffffffff
    · rw [if_pos numbered, if_pos numbered]
      exact ⟨rfl, rfl, rfl⟩
    · rw [if_neg numbered, if_neg numbered]
      exact rfl

theorem leaf_alongside (good : problem.Good arena) (mirrors : problem.Mirrors arena builder)
    (logged : problem.Logged builder) (leaf : Leaf) (limit : Nat) :
    Alongside (fun made noted => problem.Echoes arena leaf.tree made noted ∧
        made.2.finished = arena.finished ∧ made.2.nodes[made.1.index]? = some leaf.node)
      (arena.leaf limit leaf.node) (builder.leaf limit leaf) := by
  have grown : ∀ {id after}, arena.leaf limit leaf.node = .ok (id, after) →
      problem.Grown arena after id leaf.tree :=
    good.leaf leaf.successors_node fun _ _ => leaf.unfolds
  unfold Builder.leaf
  cases known : builder.leaves[leaf]? with
  | some id =>
      have found := mirrors.leaves.mp known
      have leafed := mirrors.leaf_of_found leaf found limit
      rw [leafed]
      exact ⟨⟨rfl, grown leafed, mirrors, logged⟩, rfl, found⟩
  | none =>
      have isNew : arena.leaf limit leaf.node = arena.push limit leaf.node := by
        refine Arena.leaf_of_missing limit fun index found => ?_
        have isKnown : builder.leaves[leaf]? = some ⟨index⟩ := mirrors.leaves.mpr found
        rw [known] at isKnown
        contradiction
      rw [isNew, ← bind_pure (arena.push limit leaf.node)]
      refine (push_alongside mirrors.nodes leaf.node limit).bind ?_
      rintro _ _ ⟨pushed, rfl, rfl⟩
      obtain ⟨stored, answered, remembered, apart⟩ := logged.store leaf.node
      exact ⟨⟨rfl, grown (isNew.trans pushed), mirrors.store_leaf known,
        ⟨stored, answered, remembered, apart⟩⟩, rfl, by simp⟩

theorem place_alongside {last : Arena problem.checklists.size}
    (mirrors : problem.Mirrors last builder) (logged : problem.Logged builder)
    (inner : node.successors ≠ [])
    (grows : ∀ {id after}, last.push limit node = .ok (id, after) →
      problem.Grown before (after.finish state id) id (problem.tree state)) :
    Alongside (problem.Echoes before (problem.tree state)) (last.place limit state node)
      (builder.push limit node >>= fun placed => pure (placed.1, placed.2.conclude state placed.1)) := by
  unfold Arena.place
  refine (push_alongside mirrors.nodes node limit).bind ?_
  rintro _ _ ⟨pushed, rfl, rfl⟩
  have grown := grows pushed
  have stored := mirrors.store inner
  refine ⟨rfl, grown, stored.finish, ?_⟩
  dsimp only
  rw [← mirrors.nodes]
  refine logged.conclude_store ?_
  rw [stored.nodes, mirrors.nodes]
  exact grown.unfolds

section Leaves

variable {made : NodeId × Arena problem.checklists.size}
  {noted : NodeId × Builder problem.checklists.size}

theorem Echoes.conclude_leaf (leaf : Leaf)
    (echoes : problem.Echoes before (problem.tree state) made noted)
    (found : made.2.nodes[made.1.index]? = some leaf.node) :
    problem.Logged (noted.2.conclude state noted.1) := by
  obtain ⟨same, grown, mirrors, logged⟩ := echoes
  rw [← same, ← mirrors.nodes] at found
  refine logged.conclude ?_ fun _ => Or.inr ⟨leaf, found⟩
  rw [same, mirrors.nodes]
  exact grown.unfolds

theorem Echoes.fail (moved : problem.move state = .fail)
    (echoes : problem.Echoes before .failure made noted)
    (found : made.2.nodes[made.1.index]? = some .failure) :
    problem.Echoes before (problem.tree state) (made.1, made.2.finish state made.1)
      (noted.1, noted.2.conclude state noted.1) := by
  rw [← tree_of_fail moved] at echoes
  have concluded := echoes.conclude_leaf .failure found
  obtain ⟨same, grown, mirrors, _⟩ := echoes
  exact ⟨same, grown.finish, same ▸ mirrors.finish, concluded⟩

/-- Only the builder remembers a residual that takes an arm at once. -/
theorem Echoes.take {arm : Fin problem.checklists.size} {others : Residual problem.checklists.size}
    (moved : problem.move state = .accept arm others)
    (unguarded : (problem.checklist arm).guard = none)
    (unbound : (problem.checklist arm).bindings.isEmpty = true)
    (unfinished : made.2.finished[state]? = none)
    (echoes : problem.Echoes before (.success arm (problem.checklist arm).label) made noted)
    (found : made.2.nodes[made.1.index]? = some (.success arm (problem.checklist arm).label)) :
    problem.Echoes before (problem.tree state) made (noted.1, noted.2.conclude state noted.1) := by
  have isTree : problem.tree state = .success arm (problem.checklist arm).label := by
    rw [tree_of_accept moved]
    simp only [unguarded, if_pos unbound]
  rw [← isTree] at echoes
  have concluded := echoes.conclude_leaf (.success arm _) found
  obtain ⟨same, grown, mirrors, _⟩ := echoes
  have takes : problem.TakesAt made.2.nodes state made.1 :=
    ⟨arm, others, moved, unguarded, unbound, found⟩
  exact ⟨same, grown, same ▸ mirrors.take unfinished takes, concluded⟩

end Leaves

theorem buildCached_alongside (limit : Nat) (state : Residual problem.checklists.size) :
    ∀ {arena : Arena problem.checklists.size} {builder : Builder problem.checklists.size},
      problem.Good arena → problem.Mirrors arena builder → problem.Logged builder →
        Alongside (problem.Echoes arena (problem.tree state)) (problem.build limit state arena)
          (problem.buildCached limit state builder) := by
  induction weightEq : state.weight using Nat.strongRecOn generalizing state with
  | _ weight ih =>
  intro arena builder good mirrors logged
  subst weightEq
  rw [buildCached]
  split
  · -- The memo may know a residual that is not finished: then its leaf is found again.
    rename_i id known
    have built := mirrors.build_of_known known limit
    rw [built]
    obtain ⟨nodes, memo, isKnown, leaves⟩ := mirrors
    exact ⟨rfl, (builds_of_build built).grown good, ⟨nodes, memo, isKnown, leaves⟩,
      logged.repeated known⟩
  · rename_i missing
    have unfinished : arena.finished[state]? = none := by
      cases finished : arena.finished[state]? with
      | none => rfl
      | some id =>
          rw [mirrors.memo finished] at missing
          contradiction
    -- The node is concluded after what lies behind it, with answers in between; so both
    -- builds are followed call by call, and `Logged` holds of the builder at each of them.
    have isBuild := problem.build_eq_buildBy limit state arena
    unfold buildBy at isBuild
    simp only [unfinished] at isBuild
    split
    · rename_i moved
      simp only [moved] at isBuild
      rw [isBuild]
      refine (leaf_alongside good mirrors logged .failure limit).bind ?_
      rintro made noted ⟨echoes, _, found⟩
      exact echoes.fail moved found
    · rename_i arm others moved
      simp only [moved] at isBuild
      rw [isBuild]
      dsimp only
      rw [bind_assoc]
      refine (leaf_alongside good mirrors logged (.success arm _) limit).bind ?_
      rintro ⟨success, middle⟩ ⟨_, noted⟩ ⟨echoes, sameFinished, found⟩
      cases guarded : (problem.checklist arm).guard with
      | none =>
          dsimp only
          split
          · rename_i unbound
            exact echoes.take moved guarded unbound (sameFinished ▸ unfinished) found
          · rename_i bound
            obtain ⟨rfl, leaf, mirrors, logged⟩ := echoes
            exact place_alongside mirrors logged (List.cons_ne_nil _ _)
              fun pushed => .bind moved guarded bound leaf pushed
      | some condition =>
          obtain ⟨rfl, leaf, mirrors, logged⟩ := echoes
          dsimp only
          rw [bind_assoc]
          have below := problem.weight_of_move_accept _ _ _ moved
          refine (ih _ below others rfl leaf.good mirrors logged).bind ?_
          rintro ⟨rejected, last⟩ ⟨_, noted⟩ ⟨rfl, rest, mirrors, logged⟩
          exact place_alongside mirrors logged (List.cons_ne_nil _ _)
            fun pushed => .guard moved guarded leaf rest pushed
    · rename_i made next moved
      simp only [moved] at isBuild
      rw [isBuild, bind_assoc]
      have below := problem.weight_of_move_access _ _ _ moved
      refine (ih _ below next rfl good mirrors logged).bind ?_
      rintro ⟨below, middle⟩ ⟨_, noted⟩ ⟨rfl, rest, mirrors, logged⟩
      exact place_alongside mirrors logged (List.cons_ne_nil _ _)
        fun pushed => .access moved rest pushed
    · rename_i asked onTrue onFalse moved
      simp only [moved] at isBuild
      obtain ⟨trueLess, falseLess⟩ := problem.weight_of_move_test _ _ _ _ moved
      rw [isBuild, bind_assoc]
      refine (ih _ trueLess onTrue rfl good mirrors logged).bind ?_
      rintro ⟨yes, middle⟩ ⟨_, noted⟩ ⟨rfl, whenTrue, mirrors, logged⟩
      dsimp only
      rw [bind_assoc]
      refine (ih _ falseLess onFalse rfl whenTrue.good mirrors logged).bind ?_
      rintro ⟨no, last⟩ ⟨_, noted⟩ ⟨rfl, whenFalse, mirrors, logged⟩
      exact place_alongside mirrors logged (List.cons_ne_nil _ _)
        fun pushed => .test moved whenTrue whenFalse pushed

theorem getLast?_events {after : Builder problem.checklists.size}
    (built : problem.buildCached limit state builder = .ok (id, after)) :
    after.events.getLast? = some (.answered state id) := by
  rw [buildCached] at built
  split at built
  · obtain ⟨rfl, rfl⟩ := Prod.mk.inj (Except.ok.inj built)
    exact List.getLast?_concat
  · obtain ⟨made, _, concluded⟩ := bind_eq_ok.mp built
    obtain ⟨rfl, rfl⟩ := Prod.mk.inj (pure_eq_ok.mp concluded)
    exact List.getLast?_concat

end MergeProblem

namespace DecisionGraph

/-- Where a graph is built with caches, whatever the options and the checklists are:
each call for the node of a residual returns a node from which exactly the tree of
the residual unfolds, in the nodes of that moment and of every later one, up to
those of the graph. If two calls return one node, they were about one residual, or
the node is a leaf. -/
theorem caching_transparent {types : TypeOracle} {options : Options} {table : AccessTable}
    {checklists : List Checklist} {graph : DecisionGraph}
    (built : ofChecklists types options table checklists = .ok graph) :
    let problem : MergeProblem := ⟨types, options.selection, table, checklists.toArray⟩
    ∃ builder, problem.buildCached options.nodeLimit problem.start .empty =
        .ok (graph.root, builder) ∧
      builder.events.getLast? = some (.answered problem.start graph.root) ∧
      nodesAfter builder.events builder.events.length = graph.nodes ∧
      (∀ moment state id, builder.events[moment]? = some (.answered state id) →
        ∀ later, moment ≤ later → ∀ tree,
          Unfolds (nodesAfter builder.events later) id tree ↔ tree = problem.tree state) ∧
      ∀ state other id, .answered state id ∈ builder.events → .answered other id ∈ builder.events →
        state = other ∨ ∃ leaf : Leaf, graph.nodes[id.index]? = some leaf.node := by
  intro problem
  obtain ⟨_, root, arena, made, rfl⟩ := ofChecklists_built built
  have both := problem.buildCached_alongside options.nodeLimit problem.start
    MergeProblem.good_empty .empty .empty
  rw [made] at both
  obtain ⟨⟨_, builder⟩, cached, rfl, _, mirrors, logged⟩ := both.of_ok
  refine ⟨builder, cached, MergeProblem.getLast?_events cached,
    logged.stored.trans mirrors.nodes, ?_, ?_⟩
  · intro moment state id answered later order tree
    have unfolds := logged.unfolds_later answered order
    exact ⟨fun also => also.unique unfolds, fun same => same ▸ unfolds⟩
  · intro state other id answered also
    rw [← mirrors.nodes]
    exact logged.apart answered also

/-- The second arm is taken in the end, with the third behind it or without. -/
def shadowedChecklists : List Checklist :=
  [⟨0, [.test ⟨.root, .nonNull⟩, .test ⟨.root, .equals (.int 1)⟩], [], none, ⟨0⟩⟩,
    ⟨1, [], [], none, ⟨1⟩⟩, ⟨2, [.test ⟨.root, .nonNull⟩], [], none, ⟨2⟩⟩]

def shadowedGraph : DecisionGraph where
  nodes := #[.success 0 ⟨0⟩, .success 1 ⟨1⟩, .test ⟨.root, .equals (.int 1)⟩ ⟨0⟩ ⟨1⟩,
    .test ⟨.root, .nonNull⟩ ⟨2⟩ ⟨1⟩]
  root := ⟨3⟩
  table := .ofInput Hierarchy.object
  armCount := 3

def shadowedProblem : MergeProblem where
  types := ⟨fun _ _ => .never, fun _ => true⟩
  selection := .mostShared
  table := .ofInput Hierarchy.object
  checklists := shadowedChecklists.toArray

/-- An arm that has nothing left to do. -/
def shadowedIdle (arm : Fin 3) : Pending shadowedProblem.checklists.size :=
  ⟨arm, []⟩

/-- One leaf answers two residuals, and its tree does not change as nodes come in. -/
theorem caching_transparent_shadowedGraph :
    ofChecklists ⟨fun _ _ => .never, fun _ => true⟩ {} (.ofInput Hierarchy.object)
        shadowedChecklists = .ok shadowedGraph ∧
      ∃ builder, shadowedProblem.buildCached 10000 shadowedProblem.start .empty =
          .ok (⟨3⟩, builder) ∧
        builder.events[3]? = some (.answered [shadowedIdle 1, shadowedIdle 2] ⟨1⟩) ∧
        builder.events[6]? = some (.answered [shadowedIdle 1] ⟨1⟩) ∧
        ∀ later, 3 ≤ later → ∀ tree,
          Unfolds (nodesAfter builder.events later) ⟨1⟩ tree ↔ tree = .success 1 ⟨1⟩ := by
  have built : ofChecklists ⟨fun _ _ => .never, fun _ => true⟩ {} (.ofInput Hierarchy.object)
      shadowedChecklists = .ok shadowedGraph := by
    cbv
  have log : (shadowedProblem.buildCached 10000 shadowedProblem.start .empty).map
      (fun made => (made.2.events[3]?, made.2.events[6]?)) =
        .ok (some (.answered [shadowedIdle 1, shadowedIdle 2] ⟨1⟩),
          some (.answered [shadowedIdle 1] ⟨1⟩)) := by
    cbv
  have isTree : shadowedProblem.tree [shadowedIdle 1, shadowedIdle 2] =
      .success 1 ⟨1⟩ := by
    cbv
  obtain ⟨builder, cached, _, _, transparent, _⟩ := caching_transparent built
  have isRun : shadowedProblem.buildCached 10000 shadowedProblem.start .empty = .ok (⟨3⟩, builder) :=
    cached
  rw [isRun] at log
  obtain ⟨shared, alone⟩ := Prod.mk.inj (Except.ok.inj log)
  refine ⟨built, builder, isRun, shared, alone, fun later order tree => ?_⟩
  rw [← isTree]
  exact transparent 3 _ ⟨1⟩ shared later order tree

end DecisionGraph

end MatchCompiler
