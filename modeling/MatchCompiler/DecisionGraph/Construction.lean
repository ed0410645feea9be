import MatchCompiler.DecisionGraph
import MatchCompiler.Residual.Weight
import Std.Data.HashMap

/-!
# Merging checklists into a graph

The graph is built from the first residual downwards, the node of a residual
after the nodes behind it. A residual that was met before has its node already,
which is what turns the tree of moves into a graph.
-/

set_option autoImplicit false

namespace MatchCompiler

/-- The nodes so far, and the node of every residual that is finished. -/
structure Arena (count : Nat) where
  nodes : Array Node
  finished : Std.HashMap (Residual count) NodeId

namespace Arena

variable {count : Nat}

def empty : Arena count :=
  ⟨#[], {}⟩

/-- The limit is looked at before the number of the node, which has 32 bits. -/
def push (limit : Nat) (node : Node) (arena : Arena count) :
    Except BuildError (NodeId × Arena count) :=
  if limit ≤ arena.nodes.size then .error (.tooComplex limit)
  else if arena.nodes.size ≤ 0xffffffff then
    .ok (⟨arena.nodes.size⟩, { arena with nodes := arena.nodes.push node })
  else .error .nodeOverflow

/-- The node of a leaf; equal leaves share one. -/
def leaf (limit : Nat) (node : Node) (arena : Arena count) :
    Except BuildError (NodeId × Arena count) :=
  match arena.nodes.findIdx? (· == node) with
  | some index => .ok (⟨index⟩, arena)
  | none => arena.push limit node

def finish (state : Residual count) (id : NodeId) (arena : Arena count) : Arena count :=
  { arena with finished := arena.finished.insert state id }

end Arena

namespace MergeProblem

/-- The node of a residual, built with all that lies behind it. An arm that
binds nothing and has no guard needs no node but its leaf. -/
def build (problem : MergeProblem) (limit : Nat) (state : Residual problem.checklists.size)
    (arena : Arena problem.checklists.size) :
    Except BuildError (NodeId × Arena problem.checklists.size) :=
  match arena.finished[state]? with
  | some id => .ok (id, arena)
  | none => do
      let (id, arena) ←
        match _moved : problem.move state with
        | .fail => arena.leaf limit .failure
        | .accept arm others => do
            let checklist := problem.checklist arm
            let (success, arena) ← arena.leaf limit (.success arm checklist.label)
            match checklist.guard with
            | none =>
                if checklist.bindings.isEmpty then return (success, arena)
                else
                  arena.push limit
                    (.bind arm checklist.label checklist.bindings none success none)
            | some guard => do
                let (rejected, arena) ← build problem limit others arena
                arena.push limit
                  (.bind arm checklist.label checklist.bindings (some guard) success (some rejected))
        | .access access next => do
            let (next, arena) ← build problem limit next arena
            arena.push limit (.access access next)
        | .test test onTrue onFalse => do
            let (onTrue, arena) ← build problem limit onTrue arena
            let (onFalse, arena) ← build problem limit onFalse arena
            arena.push limit (.test test onTrue onFalse)
      return (id, arena.finish state id)
termination_by state.weight
decreasing_by
  · exact problem.weight_of_move_accept _ _ _ _moved
  · exact problem.weight_of_move_access _ _ _ _moved
  · exact (problem.weight_of_move_test _ _ _ _ _moved).1
  · exact (problem.weight_of_move_test _ _ _ _ _moved).2

end MergeProblem

/-- The first checklist that does not carry its own position. -/
def misnumbered? (checklists : List Checklist) : Option (Nat × Nat) :=
  (checklists.zipIdx.find? fun entry => entry.1.index != entry.2).map fun entry =>
    (entry.2, entry.1.index)

namespace DecisionGraph

def ofChecklists (types : TypeOracle) (options : Options) (table : AccessTable)
    (checklists : List Checklist) : Except BuildError DecisionGraph := do
  if let some (position, index) := misnumbered? checklists then
    throw (.misnumbered position index)
  let problem : MergeProblem := ⟨types, options.selection, table, checklists.toArray⟩
  let (root, arena) ← problem.build options.nodeLimit problem.start .empty
  return ⟨arena.nodes, root, table, checklists.length⟩

/-- The graph of a switch over a value of type `input`. The first arm that
matches wins. -/
def ofArms (types : TypeOracle) (options : Options) (input : Ty) (arms : List Arm) :
    Except BuildError DecisionGraph := do
  let (checklists, table) ← checklists types options.sharing 0 arms (.ofInput input)
  ofChecklists types options table checklists

end DecisionGraph

end MatchCompiler
