import MatchCompiler.Proofs.DecisionGraph.Order

/-!
# The search with a stack

A depth-first search needs no recursion: it can keep the visits that are still to
be made on a stack. A node may then lie on the stack more than once, and be met
through a deeper path after it was put there, but it is finished where the
recursion finishes it.
-/

set_option autoImplicit false

namespace MatchCompiler

/-- What is still to be done about a node. It is left once all that was put above
it on the stack is done. -/
inductive DepthTask where
  | enter (id : NodeId)
  | leave (id : NodeId)
deriving DecidableEq, Repr

def DepthSearch.finish (search : DepthSearch) (id : NodeId) : DepthSearch :=
  { search with finished := id :: search.finished }

/-! ## A node is never fresh again -/

/-- A later moment of a search. -/
structure DepthSearch.Later (before after : DepthSearch) : Prop where
  fresh : ∀ {id : NodeId}, after.isFresh id = true → before.isFresh id = true
  unseen : after.unseen ≤ before.unseen

namespace DepthSearch.Later

variable {before middle after : DepthSearch}

theorem refl (search : DepthSearch) : search.Later search :=
  ⟨id, Nat.le_refl _⟩

theorem trans (first : before.Later middle) (second : middle.Later after) : before.Later after :=
  ⟨fun fresh => first.fresh (second.fresh fresh), Nat.le_trans second.unseen first.unseen⟩

theorem mark {search : DepthSearch} {id : NodeId} (isNew : search.isFresh id = true) :
    search.Later (search.mark id) where
  fresh := by
    intro other fresh
    unfold isFresh DepthSearch.mark at *
    rw [Array.getElem?_setIfInBounds] at fresh
    by_cases same : id.index = other.index
    · simp [same] at fresh
    · simpa [same] using fresh
  unseen := by
    have fewer := search.unseen_mark id isNew
    omega

theorem foldl {step : DepthSearch → NodeId → DepthSearch}
    (single : ∀ (search : DepthSearch) (id : NodeId), search.Later (step search id))
    (starts : List NodeId) :
    ∀ search : DepthSearch, search.Later (starts.foldl step search) := by
  induction starts with
  | nil => exact refl
  | cons start rest ih => exact fun search => (single search start).trans (ih _)

end DepthSearch.Later

namespace DecisionGraph

variable {graph : DecisionGraph}

theorem later_searchFrom (fuel : Nat) : ∀ (search : DepthSearch) (id : NodeId),
    search.Later (graph.searchFrom fuel search id) := by
  induction fuel with
  | zero => exact fun search _ => .refl search
  | succ fuel ih =>
      intro search id
      rw [searchFrom]
      by_cases isNew : search.isFresh id = true
      · rw [if_pos isNew]
        have behind := DepthSearch.Later.foldl ih (graph.successors id) (search.mark id)
        have whole := (DepthSearch.Later.mark isNew).trans behind
        exact ⟨whole.fresh, whole.unseen⟩
      · rw [if_neg isNew]
        exact .refl search

/-! ## The stack does what the recursion does -/

/-- Works off the stack, its top first. A node that was entered puts those of its
successors on the stack that were not seen by then. -/
def runStack (graph : DecisionGraph) : DepthSearch → List DepthTask → DepthSearch
  | search, [] => search
  | search, .leave id :: rest => graph.runStack (search.finish id) rest
  | search, .enter id :: rest =>
      if _fresh : search.isFresh id = true then
        graph.runStack (search.mark id)
          (((graph.successors id).filter (search.mark id).isFresh).map .enter ++ .leave id :: rest)
      else graph.runStack search rest
termination_by search stack => (search.unseen, stack.length)
decreasing_by
  · exact Prod.Lex.right _ (Nat.lt_succ_self _)
  · have fewer := search.unseen_mark id _fresh
    exact Prod.Lex.left _ _ (by omega)
  · exact Prod.Lex.right _ (Nat.lt_succ_self _)

/-- The reachable nodes as the search with a stack finishes them, the last one
first. -/
def stackOrder (graph : DecisionGraph) : List NodeId :=
  (graph.runStack ⟨Array.replicate graph.size false, []⟩ [.enter graph.root]).finished

theorem searchFrom_of_stale (fuel : Nat) {search : DepthSearch} {id : NodeId}
    (stale : ¬ search.isFresh id = true) : graph.searchFrom fuel search id = search := by
  cases fuel with
  | zero => rfl
  | succ fuel => rw [searchFrom, if_neg stale]

theorem runStack_leave (search : DepthSearch) (id : NodeId) (rest : List DepthTask) :
    graph.runStack search (.leave id :: rest) = graph.runStack (search.finish id) rest := by
  rw [runStack]

theorem runStack_of_fresh {search : DepthSearch} {id : NodeId} (rest : List DepthTask)
    (fresh : search.isFresh id = true) :
    graph.runStack search (.enter id :: rest) = graph.runStack (search.mark id)
      (((graph.successors id).filter (search.mark id).isFresh).map .enter ++ .leave id :: rest) := by
  rw [runStack, dif_pos fresh]

theorem runStack_of_stale {search : DepthSearch} {id : NodeId} (rest : List DepthTask)
    (stale : ¬ search.isFresh id = true) :
    graph.runStack search (.enter id :: rest) = graph.runStack search rest := by
  rw [runStack, dif_neg stale]

/-- Nodes that were put on the stack together are searched one after another. Those
that were left out had been seen, and stay so. -/
theorem runStack_enterAll {fuel : Nat} {first : DepthSearch} {rest : List DepthTask}
    (single : ∀ (search : DepthSearch) (id : NodeId) (tasks : List DepthTask),
      search.unseen ≤ fuel → graph.runStack search (.enter id :: tasks) =
        graph.runStack (graph.searchFrom fuel search id) tasks)
    (starts : List NodeId) : ∀ search : DepthSearch, search.unseen ≤ fuel →
      (∀ id, search.isFresh id = true → first.isFresh id = true) →
      graph.runStack search ((starts.filter first.isFresh).map .enter ++ rest) =
        graph.runStack (starts.foldl (graph.searchFrom fuel) search) rest := by
  induction starts with
  | nil => exact fun _ _ _ => rfl
  | cons start others ih =>
      intro search enough since
      by_cases wasFresh : first.isFresh start = true
      · rw [List.filter_cons_of_pos wasFresh, List.map_cons, List.cons_append,
          single search start _ enough]
        have later : search.Later (graph.searchFrom fuel search start) :=
          later_searchFrom fuel search start
        apply ih
        · exact Nat.le_trans later.unseen enough
        · exact fun id fresh => since id (later.fresh fresh)
      · have stale : ¬ search.isFresh start = true := fun fresh => wasFresh (since start fresh)
        rw [List.filter_cons_of_neg wasFresh, List.foldl_cons, searchFrom_of_stale fuel stale]
        exact ih search enough since

theorem runStack_enter (fuel : Nat) : ∀ (search : DepthSearch) (id : NodeId)
    (rest : List DepthTask), search.unseen ≤ fuel → graph.runStack search (.enter id :: rest) =
      graph.runStack (graph.searchFrom fuel search id) rest := by
  induction fuel with
  | zero =>
      intro search id rest enough
      apply runStack_of_stale
      intro fresh
      have fewer := search.unseen_mark id fresh
      omega
  | succ fuel ih =>
      intro search id rest enough
      by_cases fresh : search.isFresh id = true
      · have fewer := search.unseen_mark id fresh
        rw [runStack_of_fresh rest fresh,
          runStack_enterAll ih (graph.successors id) (search.mark id) (by omega) (fun _ same => same),
          runStack_leave, searchFrom, if_pos fresh]
        rfl
      · rw [runStack_of_stale rest fresh, searchFrom_of_stale _ fresh]

theorem stackOrder_eq (graph : DecisionGraph) : graph.stackOrder = graph.topologicalOrder := by
  unfold stackOrder topologicalOrder
  rw [runStack_enter graph.size _ _ _ (by simp [DepthSearch.unseen]), runStack]

end DecisionGraph

end MatchCompiler
