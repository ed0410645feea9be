import MatchCompiler.Progress

/-!
# Walks

A walk takes a value through a decision graph from the root to a leaf.
-/

set_option autoImplicit false

namespace MatchCompiler

namespace Node

def advance (table : AccessTable) (typing : Typing) (oracle : GuardOracle) (progress : Progress) :
    Node → Advance NodeId
  | .access made next => .access table made next progress
  | .test asked onTrue onFalse =>
      .choose asked.subject
        (fun value => if asked.predicate.holds typing value then onTrue else onFalse) progress
  | .bind _ _ bindings none accepted _ => .bind bindings accepted progress
  | .bind arm _ bindings (some condition) accepted rejected =>
      .guard oracle arm bindings condition accepted rejected progress
  | .success arm label => .halt (progress.stop (.ok (.matched arm label progress.bound)))
  | .failure => .halt (progress.stop (.ok .noMatch))

end Node

namespace DecisionGraph

def walkFrom (graph : DecisionGraph) (typing : Typing) (oracle : GuardOracle) :
    Nat → NodeId → Progress → Run
  | 0, _, progress => progress.stop (.error (.noLeafWithin graph.size))
  | fuel + 1, id, progress =>
      match graph.node? id with
      | none => progress.stop (.error (.unknownNode id))
      | some node =>
          match node.advance graph.table typing oracle progress with
          | .proceed next progress => graph.walkFrom typing oracle fuel next progress
          | .halt run => run

/-- Walks from the root. Without a cycle no node is visited twice, so a walk
with one more step than there are nodes has run into one. -/
def walk (graph : DecisionGraph) (typing : Typing) (oracle : GuardOracle) (input : Value) : Run :=
  graph.walkFrom typing oracle (graph.size + 1) graph.root (.start graph.table input)

end DecisionGraph

/-! ## Type tests of another kind

A runtime may answer type tests in its own way, even for null. The walk is the
same but for these answers. -/

def Predicate.holdsBy (isInstance : Value → Ty → Bool) (value : Value) : Predicate → Bool
  | .nonNull => !value.isNull
  | .isNull => value.isNull
  | .ofType type => isInstance value type
  | .equals constant => value.equals constant
  | .never => false

namespace Node

def advanceBy (table : AccessTable) (isInstance : Value → Ty → Bool) (oracle : GuardOracle)
    (progress : Progress) : Node → Advance NodeId
  | .access made next => .access table made next progress
  | .test asked onTrue onFalse =>
      .choose asked.subject
        (fun value => if asked.predicate.holdsBy isInstance value then onTrue else onFalse) progress
  | .bind _ _ bindings none accepted _ => .bind bindings accepted progress
  | .bind arm _ bindings (some condition) accepted rejected =>
      .guard oracle arm bindings condition accepted rejected progress
  | .success arm label => .halt (progress.stop (.ok (.matched arm label progress.bound)))
  | .failure => .halt (progress.stop (.ok .noMatch))

end Node

namespace DecisionGraph

def walkFromBy (graph : DecisionGraph) (isInstance : Value → Ty → Bool) (oracle : GuardOracle) :
    Nat → NodeId → Progress → Run
  | 0, _, progress => progress.stop (.error (.noLeafWithin graph.size))
  | fuel + 1, id, progress =>
      match graph.node? id with
      | none => progress.stop (.error (.unknownNode id))
      | some node =>
          match node.advanceBy graph.table isInstance oracle progress with
          | .proceed next progress => graph.walkFromBy isInstance oracle fuel next progress
          | .halt run => run

def walkBy (graph : DecisionGraph) (isInstance : Value → Ty → Bool) (oracle : GuardOracle)
    (input : Value) : Run :=
  graph.walkFromBy isInstance oracle (graph.size + 1) graph.root (.start graph.table input)

end DecisionGraph

end MatchCompiler
