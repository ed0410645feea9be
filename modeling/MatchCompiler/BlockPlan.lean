import MatchCompiler.DecisionGraph

/-!
# Block plans

A decision graph laid out for code generation: a list of blocks, the entry
first, each of which ends by leaving for other blocks.
-/

set_option autoImplicit false

namespace MatchCompiler

structure BlockId where
  index : Nat
deriving DecidableEq, Hashable, Repr

/-- How a block is left. -/
inductive Exit where
  | access (access : Access) (next : BlockId)
  | branch (test : Test) (onTrue onFalse : BlockId)
  /-- Goes to the entry whose constant equals the value. -/
  | dispatch (subject : Temp) (entries : List (Const × BlockId)) (default : BlockId)
  | bind (arm : Nat) (bindings : List Binding) (next : BlockId)
  | guard (arm : Nat) (bindings : List Binding) (guard : Guard) (accepted rejected : BlockId)
  | goto (arm : Nat) (label : Label)
  | fail
deriving DecidableEq, Repr

namespace Exit

def successors : Exit → List BlockId
  | .access _ next | .bind _ _ next => [next]
  | .branch _ onTrue onFalse => [onTrue, onFalse]
  | .guard _ _ _ accepted rejected => [accepted, rejected]
  | .dispatch _ entries default => entries.map (·.2) ++ [default]
  | .goto .. | .fail => []

def isDispatch : Exit → Bool
  | .dispatch .. => true
  | _ => false

end Exit

structure Block where
  /-- The node that the block stands for. -/
  node : NodeId
  exit : Exit
deriving DecidableEq, Repr

structure BlockPlan where
  blocks : Array Block
deriving DecidableEq, Repr

namespace BlockPlan

def entry : BlockId := ⟨0⟩

def block? (plan : BlockPlan) (id : BlockId) : Option Block :=
  plan.blocks[id.index]?

def jumpTables (plan : BlockPlan) : List Block :=
  plan.blocks.toList.filter (·.exit.isDispatch)

end BlockPlan

inductive LowerError where
  | unknownNode (node : NodeId)
  /-- An edge leads to a node that no block stands for. -/
  | missingBlock (node : NodeId)
deriving DecidableEq, Repr

def LowerError.message : LowerError → String
  | .unknownNode node => "node " ++ node.render ++ " is not in the DAG"
  | .missingBlock node => "edge into node " ++ node.render ++ ", which has no block"

end MatchCompiler
