import MatchCompiler.DecisionTree

/-!
# A build with two caches

Leaves need not be looked for among the nodes if a map tells where they are, and a
residual that takes an arm at once may be remembered like any other one. A builder
keeps both maps, and writes down which nodes it stores and which residuals it
answers, in the order in which this happens.
-/

set_option autoImplicit false

namespace MatchCompiler

inductive Leaf where
  | success (arm : Nat) (label : Label)
  | failure
deriving DecidableEq, Hashable, Repr

def Leaf.node : Leaf → Node
  | .success arm label => .success arm label
  | .failure => .failure

inductive BuildEvent (count : Nat) where
  | stored (node : Node)
  /-- A call for the node of a residual returns. -/
  | answered (state : Residual count) (id : NodeId)
deriving DecidableEq, Repr

def BuildEvent.node? {count : Nat} : BuildEvent count → Option Node
  | .stored node => some node
  | .answered .. => none

def nodesAfter {count : Nat} (events : List (BuildEvent count)) (moment : Nat) : Array Node :=
  ((events.take moment).filterMap BuildEvent.node?).toArray

structure Builder (count : Nat) where
  nodes : Array Node
  memo : Std.HashMap (Residual count) NodeId
  leaves : Std.HashMap Leaf NodeId
  events : List (BuildEvent count)

namespace Builder

variable {count : Nat}

def empty : Builder count :=
  ⟨#[], {}, {}, []⟩

def store (node : Node) (builder : Builder count) : Builder count :=
  { builder with
    nodes := builder.nodes.push node
    events := builder.events ++ [.stored node] }

def push (limit : Nat) (node : Node) (builder : Builder count) :
    Except BuildError (NodeId × Builder count) :=
  if limit ≤ builder.nodes.size then .error (.tooComplex limit)
  else if builder.nodes.size ≤ 0xffffffff then
    .ok (⟨builder.nodes.size⟩, builder.store node)
  else .error .nodeOverflow

def leaf (limit : Nat) (leaf : Leaf) (builder : Builder count) :
    Except BuildError (NodeId × Builder count) :=
  match builder.leaves[leaf]? with
  | some id => .ok (id, builder)
  | none => do
      let (id, builder) ← builder.push limit leaf.node
      return (id, { builder with leaves := builder.leaves.insert leaf id })

def answer (state : Residual count) (id : NodeId) (builder : Builder count) : Builder count :=
  { builder with events := builder.events ++ [.answered state id] }

def conclude (state : Residual count) (id : NodeId) (builder : Builder count) : Builder count :=
  { builder.answer state id with memo := builder.memo.insert state id }

end Builder

namespace MergeProblem

def buildCached (problem : MergeProblem) (limit : Nat)
    (state : Residual problem.checklists.size) (builder : Builder problem.checklists.size) :
    Except BuildError (NodeId × Builder problem.checklists.size) :=
  match builder.memo[state]? with
  | some id => .ok (id, builder.answer state id)
  | none => do
      let (id, builder) ← (
        match _moved : problem.move state with
        | .fail => builder.leaf limit .failure
        | .accept arm others => do
            let checklist := problem.checklist arm
            let (success, builder) ← builder.leaf limit (.success arm checklist.label)
            match checklist.guard with
            | none =>
                if checklist.bindings.isEmpty then return (success, builder)
                else
                  builder.push limit
                    (.bind arm checklist.label checklist.bindings none success none)
            | some guard => do
                let (rejected, builder) ← buildCached problem limit others builder
                builder.push limit
                  (.bind arm checklist.label checklist.bindings (some guard) success (some rejected))
        | .access access next => do
            let (next, builder) ← buildCached problem limit next builder
            builder.push limit (.access access next)
        | .test test onTrue onFalse => do
            let (onTrue, builder) ← buildCached problem limit onTrue builder
            let (onFalse, builder) ← buildCached problem limit onFalse builder
            builder.push limit (.test test onTrue onFalse))
      return (id, builder.conclude state id)
termination_by state.weight
decreasing_by
  · exact problem.weight_of_move_accept _ _ _ _moved
  · exact problem.weight_of_move_access _ _ _ _moved
  · exact (problem.weight_of_move_test _ _ _ _ _moved).1
  · exact (problem.weight_of_move_test _ _ _ _ _moved).2

end MergeProblem

end MatchCompiler
