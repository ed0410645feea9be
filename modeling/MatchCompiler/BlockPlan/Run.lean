import MatchCompiler.BlockPlan
import MatchCompiler.Walk

/-!
# Executing a block plan

Blocks are left one after the other, with the same slots, variables and guard
calls as on a walk through a graph. Type tests are answered as the runtime likes.
-/

set_option autoImplicit false

namespace MatchCompiler

/-- The entry of a jump table that a value goes to. -/
def Exit.target (entries : List (Const × BlockId)) (default : BlockId) (value : Value) : BlockId :=
  ((entries.find? fun entry => value.equals entry.1).map (·.2)).getD default

def Exit.advanceBy (table : AccessTable) (isInstance : Value → Ty → Bool) (oracle : GuardOracle)
    (progress : Progress) : Exit → Advance BlockId
  | .access made next => .access table made next progress
  | .branch asked onTrue onFalse =>
      .choose asked.subject
        (fun value => if asked.predicate.holdsBy isInstance value then onTrue else onFalse) progress
  | .dispatch subject entries default =>
      .choose subject (Exit.target entries default) progress
  | .bind _ bindings next => .bind bindings next progress
  | .guard arm bindings condition accepted rejected =>
      .guard oracle arm bindings condition accepted (some rejected) progress
  | .goto arm label => .halt (progress.stop (.ok (.matched arm label progress.bound)))
  | .fail => .halt (progress.stop (.ok .noMatch))

namespace BlockPlan

/-- Leaves at most `fuel` blocks. Nothing comes out where that is not enough, or
where a block does not exist. -/
def runFromBy (plan : BlockPlan) (table : AccessTable) (isInstance : Value → Ty → Bool)
    (oracle : GuardOracle) : Nat → BlockId → Progress → Option Run
  | 0, _, _ => none
  | fuel + 1, id, progress => do
      let block ← plan.block? id
      match block.exit.advanceBy table isInstance oracle progress with
      | .proceed next progress => plan.runFromBy table isInstance oracle fuel next progress
      | .halt run => some run

/-- Executes a plan from its entry. Blocks lead to later blocks only, so each is
left at most once. -/
def runBy (plan : BlockPlan) (table : AccessTable) (isInstance : Value → Ty → Bool)
    (oracle : GuardOracle) (input : Value) : Option Run :=
  plan.runFromBy table isInstance oracle plan.blocks.size entry (.start table input)

end BlockPlan

end MatchCompiler
