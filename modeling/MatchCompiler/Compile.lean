import MatchCompiler.BlockPlan.Lowering
import MatchCompiler.Coverage
import MatchCompiler.DecisionGraph.Construction
import MatchCompiler.Flow
import MatchCompiler.Walk

/-!
# Compilation

One switch through every stage: the graph, what it covers, what is known at its
nodes, and its blocks.
-/

set_option autoImplicit false

namespace MatchCompiler

structure Switch where
  input : Ty
  arms : List Arm

inductive CompileError where
  | build (error : BuildError)
  | lower (error : LowerError)
deriving DecidableEq, Repr

def CompileError.message : CompileError → String
  | .build error => error.message
  | .lower error => error.message

structure Compiled where
  graph : DecisionGraph
  coverage : Coverage
  flow : Flow
  plan : BlockPlan

def Compiled.run (compiled : Compiled) (typing : Typing) (oracle : GuardOracle) (input : Value) :
    Run :=
  compiled.graph.walk typing oracle input

def Switch.compile (types : TypeOracle) (options : Options) (switch : Switch) :
    Except CompileError Compiled := do
  let graph ← (DecisionGraph.ofArms types options switch.input switch.arms).mapError .build
  let plan ← (graph.lower options.minTableEntries).mapError .lower
  return ⟨graph, graph.coverage, graph.flow types, plan⟩

/-- The label of the one arm of a match of a single pattern. -/
def Pattern.matchLabel : Label := ⟨0⟩

/-- A match of a single pattern is a switch with one arm, which can fail. -/
def Pattern.toSwitch (pattern : Pattern) : Switch :=
  ⟨pattern.input, [⟨pattern, none, matchLabel⟩]⟩

def Pattern.compile (types : TypeOracle) (options : Options) (pattern : Pattern) :
    Except CompileError Compiled :=
  pattern.toSwitch.compile types options

/-- Independent switches; one that fails does not stop the others. -/
def compileAll (types : TypeOracle) (options : Options) (switches : List Switch) :
    List (Except CompileError Compiled) :=
  switches.map (Switch.compile types options)

end MatchCompiler
