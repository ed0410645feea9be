import Mathlib.Logic.Relation
import Mathlib.Tactic.ByContra
import MatchCompiler.DecisionGraph.Order
import MatchCompiler.Proofs.Marks

/-!
# What the topological order is

The depth-first search lists exactly the nodes of the graph that can be reached
from the root, each of them once and the root first. Where no reachable node
lies on a cycle, every edge leads to a node further on in the list.
-/

set_option autoImplicit false

namespace MatchCompiler

theorem NodeId.ext {id other : NodeId} (same : id.index = other.index) : id = other := by
  cases id
  cases other
  exact congrArg NodeId.mk same

namespace DecisionGraph

/-- Edges that leave the graph count, but nothing lies behind them. -/
def Edge (graph : DecisionGraph) (source target : NodeId) : Prop :=
  target ∈ graph.successors source

def Reaches (graph : DecisionGraph) : NodeId → NodeId → Prop :=
  Relation.ReflTransGen graph.Edge

/-- No node that can be reached from the root lies on a cycle. -/
def Acyclic (graph : DecisionGraph) : Prop :=
  ∀ id, graph.Reaches graph.root id → ¬ Relation.TransGen graph.Edge id id

theorem exists_node_of_edge {graph : DecisionGraph} {source target : NodeId}
    (edge : graph.Edge source target) :
    ∃ node, graph.node? source = some node ∧ target ∈ node.successors := by
  unfold Edge successors at edge
  cases found : graph.node? source with
  | none => simp [found] at edge
  | some node => exact ⟨node, rfl, by simpa [found] using edge⟩

theorem Edge.source_inside {graph : DecisionGraph} {source target : NodeId}
    (edge : graph.Edge source target) : source.index < graph.size := by
  obtain ⟨node, found, _⟩ := exists_node_of_edge edge
  exact (Array.getElem?_eq_some_iff.mp found).1

theorem edge_of_node {graph : DecisionGraph} {id target : NodeId} {node : Node}
    (found : graph.node? id = some node) (member : target ∈ node.successors) :
    graph.Edge id target := by
  unfold Edge successors
  rw [found]
  exact member

/-- Where a search leaves a list of finished nodes, every edge out of one of
them leads to a node that was finished before it, or closes a cycle. -/
def Settled (graph : DecisionGraph) : List NodeId → Prop
  | [] => True
  | id :: rest =>
      (∀ target, graph.Edge id target → target.index < graph.size →
        target ∈ rest ∨ graph.Reaches target id) ∧ graph.Settled rest

end DecisionGraph

namespace DepthSearch

def Marked (search : DepthSearch) (id : NodeId) : Prop :=
  search.seen[id.index]? = some true

/-- How many nodes are still to be seen. -/
def unseen (search : DepthSearch) : Nat :=
  search.seen.count false

theorem isFresh_iff (search : DepthSearch) (id : NodeId) :
    search.isFresh id = true ↔ id.index < search.seen.size ∧ ¬ search.Marked id := by
  unfold isFresh Marked
  by_cases inside : id.index < search.seen.size
  · simp [inside]
  · simp [inside]

theorem marked_mark (search : DepthSearch) (id other : NodeId)
    (inside : id.index < search.seen.size) :
    (search.mark id).Marked other ↔ search.Marked other ∨ other = id := by
  unfold Marked mark
  by_cases same : other = id
  · subst same
    simp [inside]
  · have apart : id.index ≠ other.index := fun equal => same (NodeId.ext equal.symm)
    simp [Array.getElem?_setIfInBounds_ne apart, same]

theorem unseen_mark (search : DepthSearch) (id : NodeId) (fresh : search.isFresh id = true) :
    (search.mark id).unseen + 1 = search.unseen := by
  apply Marks.count_mark
  simpa [isFresh] using fresh

/-- What a search has added: `fresh` are the nodes that it has finished, the
last one first. -/
structure Extends (graph : DecisionGraph) (fresh : List NodeId) (before after : DepthSearch) :
    Prop where
  finished : after.finished = fresh ++ before.finished
  sized : after.seen.size = before.seen.size
  marked : ∀ id, after.Marked id ↔ before.Marked id ∨ id ∈ fresh
  unmarked : ∀ id ∈ fresh, ¬ before.Marked id
  distinct : fresh.Nodup
  fewer : after.unseen ≤ before.unseen
  closed : ∀ id ∈ fresh, ∀ target, graph.Edge id target → target.index < graph.size →
    after.Marked target

namespace Extends

variable {graph : DecisionGraph} {first later : List NodeId} {before middle after : DepthSearch}

theorem refl (graph : DecisionGraph) (search : DepthSearch) : Extends graph [] search search where
  finished := rfl
  sized := rfl
  marked := by simp
  unmarked := by simp
  distinct := List.nodup_nil
  fewer := Nat.le_refl _
  closed := by simp

theorem trans (front : Extends graph first before middle) (back : Extends graph later middle after) :
    Extends graph (later ++ first) before after where
  finished := by rw [back.finished, front.finished, List.append_assoc]
  sized := back.sized.trans front.sized
  marked := by
    intro id
    rw [back.marked, front.marked, List.mem_append, or_assoc, or_comm (a := id ∈ first)]
  unmarked := by
    intro id member marked
    rcases List.mem_append.mp member with inLater | inFirst
    · exact back.unmarked id inLater ((front.marked id).mpr (Or.inl marked))
    · exact front.unmarked id inFirst marked
  distinct := by
    refine List.nodup_append.mpr ⟨back.distinct, front.distinct, ?_⟩
    rintro id inLater other inFirst rfl
    exact back.unmarked id inLater ((front.marked id).mpr (Or.inr inFirst))
  fewer := Nat.le_trans back.fewer front.fewer
  closed := by
    intro id member target edge inside
    rcases List.mem_append.mp member with inLater | inFirst
    · exact back.closed id inLater target edge inside
    · exact (back.marked target).mpr (Or.inl (front.closed id inFirst target edge inside))

theorem close {search : DepthSearch} {id : NodeId} {added : List NodeId}
    (fresh : search.isFresh id = true) (behind : Extends graph added (search.mark id) after)
    (seen : ∀ target, graph.Edge id target → target.index < graph.size → after.Marked target) :
    Extends graph (id :: added) search { after with finished := id :: after.finished } := by
  obtain ⟨inside, unmarked⟩ := (search.isFresh_iff id).mp fresh
  have fewer := search.unseen_mark id fresh
  have marked := fun other => search.marked_mark id other inside
  exact {
    finished := by simp [behind.finished, mark]
    sized := behind.sized.trans (by simp [mark])
    marked := by
      intro other
      show after.Marked other ↔ _
      rw [behind.marked, marked, List.mem_cons, or_assoc]
    unmarked := by
      intro other member before
      rcases List.mem_cons.mp member with rfl | inAdded
      · exact unmarked before
      · exact behind.unmarked other inAdded ((marked other).mpr (Or.inl before))
    distinct := List.nodup_cons.mpr
      ⟨fun inAdded => behind.unmarked id inAdded ((marked id).mpr (Or.inr rfl)), behind.distinct⟩
    fewer := by
      have := behind.fewer
      show after.unseen ≤ search.unseen
      omega
    closed := by
      intro other member target edge targetInside
      rcases List.mem_cons.mp member with rfl | inAdded
      · exact seen target edge targetInside
      · exact behind.closed other inAdded target edge targetInside }

end Extends

end DepthSearch

namespace DecisionGraph

/-- A search from some nodes in turn: it ends with everything in the graph that
lies behind them, and adds nothing else. -/
structure Searched (graph : DecisionGraph) (starts : List NodeId) (before after : DepthSearch) :
    Prop where
  added : ∃ fresh, DepthSearch.Extends graph fresh before after ∧
    ∀ id ∈ fresh, ∃ start ∈ starts, graph.Reaches start id
  seen : ∀ start ∈ starts, start.index < graph.size → after.Marked start
  settled : graph.Settled after.finished

/-- Nodes that were seen but not finished lie on the way to all the starts. -/
def OnTheWay (graph : DecisionGraph) (starts : List NodeId) (search : DepthSearch) : Prop :=
  ∀ id, search.Marked id → id ∈ search.finished ∨ ∀ start ∈ starts, graph.Reaches id start

theorem searched_all (graph : DecisionGraph) (fuel : Nat)
    (single : ∀ (search : DepthSearch) (id : NodeId), search.seen.size = graph.size →
      search.unseen ≤ fuel → graph.OnTheWay [id] search → graph.Settled search.finished →
      graph.Searched [id] search (graph.searchFrom fuel search id)) :
    ∀ (starts : List NodeId) (search : DepthSearch), search.seen.size = graph.size →
      search.unseen ≤ fuel → graph.OnTheWay starts search → graph.Settled search.finished →
      graph.Searched starts search (starts.foldl (graph.searchFrom fuel) search) := by
  intro starts
  induction starts with
  | nil =>
      intro search _ _ _ settled
      exact ⟨⟨[], .refl graph search, by simp⟩, by simp, settled⟩
  | cons start rest ih =>
      intro search sized enough onTheWay settled
      have head := single search start sized enough
        (fun id marked => (onTheWay id marked).imp_right fun reaches =>
          by simpa using reaches start List.mem_cons_self) settled
      obtain ⟨first, firstExtends, firstBehind⟩ := head.added
      have restOnTheWay : graph.OnTheWay rest (graph.searchFrom fuel search start) := by
        intro id marked
        rw [firstExtends.finished]
        rcases (firstExtends.marked id).mp marked with before | fresh
        · rcases onTheWay id before with finished | reaches
          · exact Or.inl (List.mem_append_right _ finished)
          · exact Or.inr fun other member => reaches other (List.mem_cons_of_mem _ member)
        · exact Or.inl (List.mem_append_left _ fresh)
      have tail := ih (graph.searchFrom fuel search start) (firstExtends.sized.trans sized)
        (Nat.le_trans firstExtends.fewer enough) restOnTheWay head.settled
      obtain ⟨later, laterExtends, laterBehind⟩ := tail.added
      refine ⟨⟨later ++ first, firstExtends.trans laterExtends, ?_⟩, ?_, tail.settled⟩
      · intro id member
        rcases List.mem_append.mp member with inLater | inFirst
        · obtain ⟨other, inRest, reaches⟩ := laterBehind id inLater
          exact ⟨other, List.mem_cons_of_mem _ inRest, reaches⟩
        · obtain ⟨other, isStart, reaches⟩ := firstBehind id inFirst
          exact ⟨other, List.mem_cons.mpr (Or.inl (by simpa using isStart)), reaches⟩
      · intro other member inside
        rcases List.mem_cons.mp member with rfl | inRest
        · exact (laterExtends.marked other).mpr
            (Or.inl (head.seen other List.mem_cons_self inside))
        · exact tail.seen other inRest inside

theorem searched_of_stale {graph : DecisionGraph} {search : DepthSearch} {id : NodeId}
    (sized : search.seen.size = graph.size) (stale : ¬ search.isFresh id = true)
    (settled : graph.Settled search.finished) : graph.Searched [id] search search := by
  refine ⟨⟨[], .refl graph search, by simp⟩, ?_, settled⟩
  intro start member inside
  obtain rfl := List.mem_singleton.mp member
  by_contra unmarked
  exact stale ((search.isFresh_iff start).mpr ⟨by omega, unmarked⟩)

theorem OnTheWay.successors {graph : DecisionGraph} {search : DepthSearch} {id : NodeId}
    (onTheWay : graph.OnTheWay [id] search) (inside : id.index < search.seen.size) :
    graph.OnTheWay (graph.successors id) (search.mark id) := by
  intro other marked
  rcases (search.marked_mark id other inside).mp marked with before | rfl
  · rcases onTheWay other before with finished | reaches
    · exact Or.inl finished
    · exact Or.inr fun target edge => (reaches id (List.mem_singleton.mpr rfl)).tail edge
  · exact Or.inr fun target edge => Relation.ReflTransGen.single edge

/-- The search of what a node leads to is the search of the node, once it is
finished. -/
theorem Searched.close {graph : DecisionGraph} {search after : DepthSearch} {id : NodeId}
    (fresh : search.isFresh id = true) (onTheWay : graph.OnTheWay [id] search)
    (behind : graph.Searched (graph.successors id) (search.mark id) after) :
    graph.Searched [id] search { after with finished := id :: after.finished } := by
  obtain ⟨added, extended, reached⟩ := behind.added
  have closed := extended.close fresh behind.seen
  refine ⟨⟨id :: added, closed, ?_⟩, ?_, ?_, behind.settled⟩
  · intro other member
    refine ⟨id, List.mem_singleton.mpr rfl, ?_⟩
    rcases List.mem_cons.mp member with rfl | inAdded
    · exact Relation.ReflTransGen.refl
    · obtain ⟨successor, edge, reaches⟩ := reached other inAdded
      exact Relation.ReflTransGen.head edge reaches
  · intro start member _
    obtain rfl := List.mem_singleton.mp member
    exact (closed.marked start).mpr (Or.inr List.mem_cons_self)
  · intro target edge targetInside
    rw [extended.finished]
    rcases (closed.marked target).mp (behind.seen target edge targetInside) with before | inNew
    · rcases onTheWay target before with finished | reaches
      · exact Or.inl (List.mem_append_right _ finished)
      · exact Or.inr (reaches id (List.mem_singleton.mpr rfl))
    · rcases List.mem_cons.mp inNew with rfl | inAdded
      · exact Or.inr Relation.ReflTransGen.refl
      · exact Or.inl (List.mem_append_left _ inAdded)

theorem searchFrom_searched (graph : DecisionGraph) (fuel : Nat) :
    ∀ (search : DepthSearch) (id : NodeId), search.seen.size = graph.size →
      search.unseen ≤ fuel → graph.OnTheWay [id] search → graph.Settled search.finished →
      graph.Searched [id] search (graph.searchFrom fuel search id) := by
  induction fuel with
  | zero =>
      intro search id sized enough _ settled
      refine searched_of_stale sized (fun fresh => ?_) settled
      have fewer := search.unseen_mark id fresh
      omega
  | succ fuel ih =>
      intro search id sized enough onTheWay settled
      rw [searchFrom]
      by_cases fresh : search.isFresh id = true
      · rw [if_pos fresh]
        have fewer := search.unseen_mark id fresh
        have inside := ((search.isFresh_iff id).mp fresh).1
        have behind := searched_all graph fuel ih (graph.successors id) (search.mark id)
          (by simpa [DepthSearch.mark] using sized) (by omega) (onTheWay.successors inside) settled
        exact behind.close fresh onTheWay
      · rw [if_neg fresh]
        exact searched_of_stale sized fresh settled

/-! ## The order of the whole graph -/

theorem topologicalOrder_searched (graph : DecisionGraph) :
    ∃ fresh, DepthSearch.Extends graph fresh ⟨Array.replicate graph.size false, []⟩
        (graph.searchFrom graph.size ⟨Array.replicate graph.size false, []⟩ graph.root) ∧
      graph.topologicalOrder = fresh ∧ (∀ id ∈ fresh, graph.Reaches graph.root id) ∧
      (graph.root.index < graph.size → graph.root ∈ fresh) ∧ graph.Settled fresh := by
  have nothingSeen : ∀ id, ¬ DepthSearch.Marked ⟨Array.replicate graph.size false, []⟩ id := by
    intro id marked
    simp [DepthSearch.Marked, Array.getElem?_replicate] at marked
  have searched := searchFrom_searched graph graph.size ⟨Array.replicate graph.size false, []⟩
    graph.root (by simp) (by simp [DepthSearch.unseen]) (fun id marked => absurd marked (nothingSeen id))
    trivial
  obtain ⟨fresh, extended, reached⟩ := searched.added
  have finished : graph.topologicalOrder = fresh := by
    simpa [topologicalOrder] using extended.finished
  refine ⟨fresh, extended, finished, ?_, ?_, finished ▸ searched.settled⟩
  · intro id member
    obtain ⟨start, isRoot, reaches⟩ := reached id member
    obtain rfl := List.mem_singleton.mp isRoot
    exact reaches
  · intro inside
    rcases (extended.marked graph.root).mp
      (searched.seen graph.root (List.mem_singleton.mpr rfl) inside) with before | member
    · exact absurd before (nothingSeen graph.root)
    · exact member

theorem nodup_topologicalOrder (graph : DecisionGraph) : graph.topologicalOrder.Nodup := by
  obtain ⟨fresh, extended, finished, _, _, _⟩ := graph.topologicalOrder_searched
  rw [finished]
  exact extended.distinct

theorem mem_topologicalOrder_of_edge {graph : DecisionGraph} {id target : NodeId}
    (member : id ∈ graph.topologicalOrder) (edge : graph.Edge id target)
    (inside : target.index < graph.size) : target ∈ graph.topologicalOrder := by
  obtain ⟨fresh, extended, finished, _, _, _⟩ := graph.topologicalOrder_searched
  rw [finished] at member ⊢
  rcases (extended.marked target).mp (extended.closed id member target edge inside) with
    before | added
  · simp [DepthSearch.Marked, Array.getElem?_replicate] at before
  · exact added

theorem mem_topologicalOrder (graph : DecisionGraph) (id : NodeId) :
    id ∈ graph.topologicalOrder ↔ graph.Reaches graph.root id ∧ id.index < graph.size := by
  constructor
  · intro member
    obtain ⟨fresh, extended, finished, reached, _, _⟩ := graph.topologicalOrder_searched
    rw [finished] at member
    refine ⟨reached id member, ?_⟩
    have marked := (extended.marked id).mpr (Or.inr member)
    have sized := extended.sized
    simp only [Array.size_replicate] at sized
    unfold DepthSearch.Marked at marked
    have inside := (Array.getElem?_eq_some_iff.mp marked).1
    omega
  · rintro ⟨reaches, inside⟩
    induction reaches with
    | refl =>
        obtain ⟨fresh, _, finished, _, rootMember, _⟩ := graph.topologicalOrder_searched
        rw [finished]
        exact rootMember inside
    | tail _ edge ih => exact mem_topologicalOrder_of_edge (ih edge.source_inside) edge inside

theorem length_topologicalOrder_le (graph : DecisionGraph) :
    graph.topologicalOrder.length ≤ graph.size := by
  have inside : graph.topologicalOrder.map NodeId.index ⊆ List.range graph.size := by
    intro index member
    obtain ⟨id, inOrder, rfl⟩ := List.mem_map.mp member
    exact List.mem_range.mpr ((graph.mem_topologicalOrder id).mp inOrder).2
  have distinct : (graph.topologicalOrder.map NodeId.index).Nodup :=
    List.Pairwise.map NodeId.index
      (fun a b apart equal => apart (by cases a; cases b; simp_all)) graph.nodup_topologicalOrder
  simpa using List.Nodup.length_le_of_subset distinct inside

theorem head?_topologicalOrder (graph : DecisionGraph) (inside : graph.root.index < graph.size) :
    graph.topologicalOrder.head? = some graph.root := by
  unfold topologicalOrder
  obtain ⟨fuel, sizeEq⟩ := Nat.exists_eq_succ_of_ne_zero (Nat.ne_of_gt (Nat.zero_lt_of_lt inside))
  have fresh : DepthSearch.isFresh ⟨Array.replicate graph.size false, []⟩ graph.root = true :=
    (DepthSearch.isFresh_iff _ _).mpr
      ⟨by simpa using inside, by simp [DepthSearch.Marked, Array.getElem?_replicate]⟩
  generalize (⟨Array.replicate graph.size false, []⟩ : DepthSearch) = search at fresh ⊢
  rw [sizeEq, searchFrom, if_pos fresh]
  rfl

/-! ## Without cycles edges lead onward -/

def rank (graph : DecisionGraph) (id : NodeId) : Nat :=
  graph.topologicalOrder.idxOf id

theorem rank_lt_length {graph : DecisionGraph} {id : NodeId}
    (member : id ∈ graph.topologicalOrder) : graph.rank id < graph.topologicalOrder.length :=
  List.idxOf_lt_length_of_mem member

theorem settled_suffix {graph : DecisionGraph} (front : List NodeId) :
    ∀ {back : List NodeId}, graph.Settled (front ++ back) → graph.Settled back := by
  induction front with
  | nil => exact id
  | cons _ rest ih => exact fun settled => ih settled.2

theorem mem_back_of_edge {graph : DecisionGraph} (acyclic : graph.Acyclic)
    {front back : List NodeId} {id target : NodeId}
    (split : graph.topologicalOrder = front ++ id :: back) (edge : graph.Edge id target)
    (inside : target.index < graph.size) : target ∈ back := by
  obtain ⟨fresh, _, finished, reached, _, settled⟩ := graph.topologicalOrder_searched
  rw [← finished, split] at settled
  rcases (settled_suffix front settled).1 target edge inside with later | reaches
  · exact later
  · have reachable : graph.Reaches graph.root id := reached id (by simp [← finished, split])
    exact absurd (Relation.TransGen.head' edge reaches) (acyclic id reachable)

theorem mem_front_of_edge {graph : DecisionGraph} (acyclic : graph.Acyclic)
    {front back : List NodeId} {source id : NodeId}
    (split : graph.topologicalOrder = front ++ id :: back) (edge : graph.Edge source id)
    (inOrder : source ∈ graph.topologicalOrder) : source ∈ front := by
  have idInOrder : id ∈ graph.topologicalOrder := by simp [split]
  rw [split, List.mem_append, List.mem_cons] at inOrder
  rcases inOrder with inFront | rfl | inBack
  · exact inFront
  · have reachable := ((graph.mem_topologicalOrder source).mp idInOrder).1
    exact absurd (Relation.TransGen.single edge) (acyclic source reachable)
  · obtain ⟨first, last, rfl⟩ := List.append_of_mem inBack
    have later : graph.topologicalOrder = (front ++ id :: first) ++ source :: last := by
      simp [split]
    have again : id ∈ last :=
      mem_back_of_edge acyclic later edge ((graph.mem_topologicalOrder id).mp idInOrder).2
    have distinct := graph.nodup_topologicalOrder
    rw [split, List.nodup_append, List.nodup_cons] at distinct
    exact absurd (by simp [again]) distinct.2.1.1

theorem rank_lt_of_edge {graph : DecisionGraph} (acyclic : graph.Acyclic) {id target : NodeId}
    (member : id ∈ graph.topologicalOrder) (edge : graph.Edge id target)
    (inside : target.index < graph.size) : graph.rank id < graph.rank target := by
  obtain ⟨front, back, split⟩ := List.append_of_mem member
  have inBack := mem_back_of_edge acyclic split edge inside
  have distinct := graph.nodup_topologicalOrder
  rw [split] at distinct
  obtain ⟨_, tailDistinct, apart⟩ := List.nodup_append.mp distinct
  have idNotFront : id ∉ front := fun early => apart id early id List.mem_cons_self rfl
  have targetNotFront : target ∉ front := fun early =>
    apart target early target (List.mem_cons_of_mem _ inBack) rfl
  have apartHead : (id == target) = false := beq_eq_false_iff_ne.mpr (by
    rintro rfl
    exact (List.nodup_cons.mp tailDistinct).1 inBack)
  unfold rank
  rw [split, List.idxOf_append, List.idxOf_append, if_neg idNotFront, if_neg targetNotFront,
    List.idxOf_cons_self]
  simp [List.idxOf_cons, apartHead]

theorem rank_lt_of_rising {graph : DecisionGraph}
    (rising : ∀ id ∈ graph.topologicalOrder, ∀ target ∈ graph.successors id,
      target.index < graph.size → graph.rank id < graph.rank target)
    {id target : NodeId} (member : id ∈ graph.topologicalOrder)
    (path : Relation.TransGen graph.Edge id target) (inside : target.index < graph.size) :
    target ∈ graph.topologicalOrder ∧ graph.rank id < graph.rank target := by
  induction path with
  | single edge => exact ⟨mem_topologicalOrder_of_edge member edge inside, rising _ member _ edge inside⟩
  | tail _ edge ih =>
      obtain ⟨between, before⟩ := ih edge.source_inside
      exact ⟨mem_topologicalOrder_of_edge between edge inside,
        Nat.lt_trans before (rising _ between _ edge inside)⟩

theorem rank_lt_of_transGen {graph : DecisionGraph} (acyclic : graph.Acyclic) {id target : NodeId}
    (member : id ∈ graph.topologicalOrder) (path : Relation.TransGen graph.Edge id target)
    (inside : target.index < graph.size) : graph.rank id < graph.rank target :=
  (rank_lt_of_rising (fun _ member _ edge => rank_lt_of_edge acyclic member edge)
    member path inside).2

theorem acyclic_iff {graph : DecisionGraph} : graph.Acyclic ↔
    ∀ id ∈ graph.topologicalOrder, ∀ target ∈ graph.successors id, target.index < graph.size →
      graph.rank id < graph.rank target := by
  refine ⟨fun acyclic id member target edge => rank_lt_of_edge acyclic member edge, ?_⟩
  intro rising id reachable cycle
  obtain ⟨_, first, _⟩ := Relation.TransGen.head'_iff.mp cycle
  have inside := first.source_inside
  have member := (graph.mem_topologicalOrder id).mpr ⟨reachable, inside⟩
  exact Nat.lt_irrefl _ (rank_lt_of_rising rising member cycle inside).2

instance (graph : DecisionGraph) : Decidable graph.Acyclic :=
  decidable_of_iff' _ acyclic_iff

theorem pairwise_rank (graph : DecisionGraph) :
    graph.topologicalOrder.Pairwise fun first second => graph.rank first < graph.rank second := by
  rw [List.pairwise_iff_getElem]
  intro i j iInside jInside before
  unfold rank
  rw [List.Nodup.idxOf_getElem graph.nodup_topologicalOrder,
    List.Nodup.idxOf_getElem graph.nodup_topologicalOrder]
  exact before

end DecisionGraph

end MatchCompiler
