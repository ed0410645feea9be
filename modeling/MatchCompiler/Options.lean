import MatchCompiler.Types

/-!
# Options and failures of a compilation
-/

set_option autoImplicit false

namespace MatchCompiler

/-- Which of the steps that come next in the arms is taken first. -/
inductive Selection where
  /-- The one that most arms wait for; of several, the earliest arm's. -/
  | mostShared
  /-- The first arm's. -/
  | firstArm
deriving DecidableEq, Repr

/-- Whether arms share the calls of decomposition methods. -/
inductive Sharing where
  | shared
  | perArm
deriving DecidableEq, Repr

structure Options where
  nodeLimit : Nat := 10000
  selection : Selection := .mostShared
  sharing : Sharing := .shared
  /-- The least number of constants that make a jump table. -/
  minTableEntries : Nat := 3
deriving DecidableEq, Repr

inductive BuildError where
  /-- The graph would get more nodes than the limit allows. -/
  | tooComplex (limit : Nat)
  /-- An arm examines another type than the switch does. -/
  | inputMismatch (arm : Nat) (examined input : Ty)
  /-- An arm's number does not fit into the owner of a decomposition call. -/
  | armOverflow
  /-- A part's number, or the number of all parts, does not fit into 32 bits. -/
  | partOverflow
  /-- There are more elements than a number can say. -/
  | tooLong
  | nodeOverflow
  /-- A checklist does not carry its own position. -/
  | misnumbered (position index : Nat)
deriving DecidableEq, Repr

def BuildError.message : BuildError → String
  | .tooComplex limit => "decision DAG exceeds " ++ toString limit ++ " nodes"
  | .inputMismatch arm examined input =>
      "internal error in decision DAG builder: case " ++ toString arm ++ " examines " ++
        examined.render ++ " but the switch input is " ++ input.render
  | .armOverflow => "internal error in decision DAG builder: case index overflows u32"
  | .partOverflow => "internal error in decision DAG builder: sub-pattern count overflows u32"
  | .tooLong => "internal error in decision DAG builder: indexable pattern too long"
  | .nodeOverflow => "internal error in decision DAG builder: node index overflows u32"
  | .misnumbered position index =>
      "internal error in decision DAG builder: case at position " ++ toString position ++
        " carries index " ++ toString index

end MatchCompiler
