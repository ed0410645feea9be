import MatchCompiler.BlockPlan
import MatchCompiler.DecisionGraph.Order

/-!
# Laying out blocks

Every reachable node gets a block, in topological order, except where a chain of
comparisons of one temp with distinct constants becomes a jump table: the first
node of the chain then dispatches on all constants, and the others, which are
entered from the chain only, need no block.
-/

set_option autoImplicit false

namespace MatchCompiler

structure Link where
  node : NodeId
  constant : Const
  target : NodeId
deriving DecidableEq, Repr

/-- Comparisons in turn, and where to go if none of them passes. -/
structure Chain where
  links : List Link
  default : NodeId
deriving DecidableEq, Repr

/-- A node that compares a temp with a constant fit for a jump table: the temp,
the comparison, and the node after a failed one. -/
def DecisionGraph.comparison? (graph : DecisionGraph) (id : NodeId) :
    Option (Temp × Link × NodeId) :=
  match graph.node? id with
  | some (.test ⟨subject, .equals constant⟩ onTrue onFalse) =>
      if constant.isSwitchable then some (subject, ⟨id, constant, onTrue⟩, onFalse) else none
  | _ => none

/-- A plan in the making: which nodes a chain has taken in, and the chain that
starts at each node. -/
structure Layout where
  absorbed : Array Bool
  chains : Array (Option Chain)

namespace Layout

def empty (graph : DecisionGraph) : Layout :=
  ⟨Array.replicate graph.size false, Array.replicate graph.size none⟩

def isAbsorbed (layout : Layout) (id : NodeId) : Bool :=
  layout.absorbed[id.index]? == some true

/-- Follows failed comparisons from `current` on, at most `fuel` of them, as
long as they ask about the same temp, are entered from one node only, and bring
in a constant that differs from all before it. -/
def follow (graph : DecisionGraph) (predecessors : Array (List NodeId)) (layout : Layout)
    (subject : Temp) : Nat → List Const → NodeId → Chain
  | 0, _, current => ⟨[], current⟩
  | fuel + 1, constants, current =>
      match graph.comparison? current with
      | some (other, link, next) =>
          if other = subject ∧ (predecessors[current.index]?.map List.length) = some 1 ∧
              (∀ constant ∈ constants, constant.sameValue? link.constant = some false) ∧
              layout.isAbsorbed current = false then
            let rest := follow graph predecessors layout subject fuel
              (constants ++ [link.constant]) next
            { rest with links := link :: rest.links }
          else ⟨[], current⟩
      | none => ⟨[], current⟩

/-- The longest chain from a node on. Its constants differ, so it does not come
back to a node. -/
def chainFrom? (graph : DecisionGraph) (predecessors : Array (List NodeId)) (layout : Layout)
    (head : NodeId) : Option Chain :=
  (graph.comparison? head).map fun (subject, link, next) =>
    let rest := follow graph predecessors layout subject graph.size [link.constant] next
    { rest with links := link :: rest.links }

/-- Turns the chain at a node into a table if it is long enough. -/
def absorb (graph : DecisionGraph) (predecessors : Array (List NodeId)) (minEntries : Nat)
    (layout : Layout) (head : NodeId) : Layout :=
  if layout.isAbsorbed head then layout
  else
    match layout.chainFrom? graph predecessors head with
    | none => layout
    | some chain =>
        if chain.links.length < minEntries then layout
        else
          { absorbed := chain.links.tail.foldl
              (fun absorbed link => absorbed.setIfInBounds link.node.index true) layout.absorbed
            chains := layout.chains.setIfInBounds head.index (some chain) }

/-- All chains that become tables, found in the given order. -/
def plan (graph : DecisionGraph) (minEntries : Nat) (order : List NodeId) : Layout :=
  order.foldl (absorb graph graph.predecessors minEntries) (empty graph)

end Layout

def BlockId.table (size : Nat) (kept : List NodeId) : Array (Option BlockId) :=
  kept.zipIdx.foldl (fun table entry => table.setIfInBounds entry.1.index (some ⟨entry.2⟩))
    (Array.replicate size none)

def BlockId.find (blocks : Array (Option BlockId)) (node : NodeId) : Except LowerError BlockId :=
  match blocks[node.index]?.join with
  | some block => .ok block
  | none => .error (.missingBlock node)

def Chain.exit (blocks : Array (Option BlockId)) (subject : Temp) (chain : Chain) :
    Except LowerError Exit := do
  let entries ← chain.links.mapM fun link => do
    let target ← BlockId.find blocks link.target
    return (link.constant, target)
  let default ← BlockId.find blocks chain.default
  return .dispatch subject entries default

def Node.exit (blocks : Array (Option BlockId)) (id : NodeId) : Node → Except LowerError Exit
  | .access made next => do
      let next ← BlockId.find blocks next
      return .access made next
  | .test asked onTrue onFalse => do
      let onTrue ← BlockId.find blocks onTrue
      let onFalse ← BlockId.find blocks onFalse
      return .branch asked onTrue onFalse
  | .bind arm _ bindings none accepted _ => do
      let next ← BlockId.find blocks accepted
      return .bind arm bindings next
  | .bind arm _ bindings (some condition) accepted rejected => do
      let accepted ← BlockId.find blocks accepted
      match rejected with
      | none => throw (.missingBlock id)
      | some rejected =>
          let rejected ← BlockId.find blocks rejected
          return .guard arm bindings condition accepted rejected
  | .success arm label => return .goto arm label
  | .failure => return .fail

namespace DecisionGraph

def layOut (graph : DecisionGraph) (layout : Layout) (blocks : Array (Option BlockId))
    (id : NodeId) : Except LowerError Block :=
  match graph.node? id with
  | none => .error (.unknownNode id)
  | some node => do
      let exit ←
        match node, layout.chains[id.index]?.join with
        | .test asked _ _, some chain => chain.exit blocks asked.subject
        | node, _ => node.exit blocks id
      return ⟨id, exit⟩

def lower (graph : DecisionGraph) (minTableEntries : Nat) : Except LowerError BlockPlan := do
  let order := graph.topologicalOrder
  let layout := Layout.plan graph minTableEntries order
  let kept := order.filter fun id => !layout.isAbsorbed id
  let blocks ← kept.mapM (graph.layOut layout (BlockId.table graph.size kept))
  return ⟨blocks.toArray⟩

end DecisionGraph

end MatchCompiler
