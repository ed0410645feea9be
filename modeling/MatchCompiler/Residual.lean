import MatchCompiler.Checklist
import MatchCompiler.Implication

/-!
# Residuals

The state of a match half done: the arms that can still be taken, the first one
preferred, each with the steps that are still to do. What to do next depends on
the residual only, and leads to smaller residuals.
-/

set_option autoImplicit false

namespace MatchCompiler

/-- One of `count` arms, with the steps still to do. -/
structure Pending (count : Nat) where
  arm : Fin count
  todo : List Step
deriving DecidableEq, Hashable, Repr

abbrev Residual (count : Nat) := List (Pending count)

structure MergeProblem where
  types : TypeOracle
  selection : Selection
  table : AccessTable
  checklists : Array Checklist

/-- What to do next, and what is left afterwards. -/
inductive Move (count : Nat) where
  | fail
  /-- Nothing is left to do for the first arm. If its guard rejects, the others
  remain. -/
  | accept (arm : Fin count) (others : Residual count)
  | access (access : Access) (next : Residual count)
  | test (test : Test) (onTrue onFalse : Residual count)
deriving DecidableEq, Repr

namespace Residual

variable {count : Nat}

/-- The steps still to do, and one more for every arm. -/
def weight : Residual count → Nat
  | [] => 0
  | pending :: rest => pending.todo.length + 1 + weight rest

def heads (state : Residual count) : List Step :=
  state.filterMap fun pending => pending.todo.head?

/-- No arm needs an access that was made. -/
def afterAccess (state : Residual count) (access : Access) : Residual count :=
  state.map fun pending => { pending with todo := pending.todo.filter (· != .access access) }

def settled (problem : MergeProblem) (known : Test) (outcome : Bool) : Step → Option Bool
  | .access _ => none
  | .test asked =>
      if asked.subject = known.subject then
        known.predicate.implied problem.types
          (!problem.types.canBeNull (problem.table.typeOf known.subject)) outcome asked.predicate
      else none

end Residual

/-- An arm that needs an answer it cannot get is out; answers it has need not be
asked for. -/
def Pending.resolve {count : Nat} (answer : Step → Option Bool) (pending : Pending count) :
    Option (Pending count) :=
  if pending.todo.any (answer · == some false) then none
  else some { pending with todo := pending.todo.filter (answer · != some true) }

namespace Residual

variable {count : Nat}

def afterTest (problem : MergeProblem) (test : Test) (outcome : Bool) (state : Residual count) :
    Residual count :=
  state.filterMap (Pending.resolve (settled problem test outcome))

end Residual

/-- The step to take first, out of the next steps of all arms; `first` is the
first arm's. -/
def Selection.choose (selection : Selection) (first : Step) (heads : List Step) : Step :=
  match selection with
  | .firstArm => first
  | .mostShared =>
      heads.foldl (fun best step => if heads.count best < heads.count step then step else best) first

namespace MergeProblem

def move {count : Nat} (problem : MergeProblem) (state : Residual count) : Move count :=
  match state with
  | [] => .fail
  | ⟨arm, []⟩ :: others => .accept arm others
  | ⟨_, first :: _⟩ :: _ =>
      match problem.selection.choose first state.heads with
      | .access access => .access access (state.afterAccess access)
      | .test test =>
          .test test (state.afterTest problem test true) (state.afterTest problem test false)

def checklist (problem : MergeProblem) (arm : Fin problem.checklists.size) : Checklist :=
  problem.checklists[arm]

def start (problem : MergeProblem) : Residual problem.checklists.size :=
  (List.finRange problem.checklists.size).map fun arm => ⟨arm, (problem.checklist arm).steps⟩

end MergeProblem

end MatchCompiler
