import Mathlib
import MatchCompiler.Proofs.DecisionGraph.Construction
import MatchCompiler.Proofs.DecisionGraph.Path
import MatchCompiler.Proofs.Walk

/-!
# The ways to a node

A way to a node is a possible path from the root. In a graph whose edges lead
downwards there are finitely many of them, and they can be listed.
-/

set_option autoImplicit false

namespace MatchCompiler

instance : DecidablePred Turn.Possible
  | .access _ | .bind _ _ => inferInstanceAs (Decidable True)
  | .test asked outcome =>
      inferInstanceAs (Decidable (asked.predicate = .never → outcome = false))

def Node.possibleTurns (node : Node) : List (Turn × NodeId) :=
  node.turns.filter fun leave => decide leave.1.Possible

theorem Node.mem_possibleTurns {node : Node} {turn : Turn} {target : NodeId} :
    (turn, target) ∈ node.possibleTurns ↔ (turn, target) ∈ node.turns ∧ turn.Possible := by
  simp [possibleTurns]

namespace DecisionGraph

variable {graph : DecisionGraph} {id target : NodeId} {node : Node} {turn : Turn}
  {turns : List Turn}

structure Way (graph : DecisionGraph) (turns : List Turn) (id : NodeId) : Prop where
  path : graph.Path graph.root turns id
  possible : ∀ turn ∈ turns, turn.Possible

theorem way_root (graph : DecisionGraph) : graph.Way [] graph.root :=
  ⟨.nil, fun _ member => absurd member List.not_mem_nil⟩

theorem feasible_iff : graph.Feasible id ↔ ∃ turns, graph.Way turns id :=
  ⟨fun ⟨turns, path, possible⟩ => ⟨turns, path, possible⟩,
    fun ⟨turns, path, possible⟩ => ⟨turns, path, possible⟩⟩

theorem Way.snoc (way : graph.Way turns id) (found : graph.node? id = some node)
    (taken : (turn, target) ∈ node.possibleTurns) : graph.Way (turns ++ [turn]) target where
  path := way.path.snoc found (Node.mem_possibleTurns.mp taken).1
  possible := by
    intro other member
    rcases List.mem_append.mp member with before | last
    · exact way.possible other before
    · obtain rfl := List.mem_singleton.mp last
      exact (Node.mem_possibleTurns.mp taken).2

theorem way_iff : graph.Way turns target ↔
    (turns = [] ∧ target = graph.root) ∨
      ∃ before id node turn, graph.Way before id ∧ graph.node? id = some node ∧
        (turn, target) ∈ node.possibleTurns ∧ turns = before ++ [turn] := by
  constructor
  · rintro ⟨path, possible⟩
    cases path with
    | nil => exact Or.inl ⟨rfl, rfl⟩
    | @snoc before id _ node turn path found taken =>
        refine Or.inr ⟨before, id, node, turn, ⟨path, fun other member => ?_⟩, found, ?_, rfl⟩
        · exact possible other (List.mem_append_left _ member)
        · exact Node.mem_possibleTurns.mpr ⟨taken, possible turn (by simp)⟩
  · rintro (⟨rfl, rfl⟩ | ⟨before, id, node, turn, way, found, taken, rfl⟩)
    · exact graph.way_root
    · exact way.snoc found taken

def waysOfLength (graph : DecisionGraph) : Nat → List (List Turn × NodeId)
  | 0 => [([], graph.root)]
  | length + 1 => (graph.waysOfLength length).flatMap fun way =>
      (((graph.node? way.2).map Node.possibleTurns).getD []).map fun leave =>
        (way.1 ++ [leave.1], leave.2)

theorem mem_waysOfLength {length : Nat} :
    (turns, id) ∈ graph.waysOfLength length ↔ graph.Way turns id ∧ turns.length = length := by
  induction length generalizing turns id with
  | zero =>
      simp only [waysOfLength, List.mem_singleton, Prod.mk.injEq, List.length_eq_zero_iff]
      constructor
      · rintro ⟨rfl, rfl⟩
        exact ⟨graph.way_root, rfl⟩
      · rintro ⟨way, rfl⟩
        rcases way_iff.mp way with ⟨_, isRoot⟩ | ⟨_, _, _, _, _, _, _, isSnoc⟩
        · exact ⟨rfl, isRoot⟩
        · simp at isSnoc
  | succ length ih =>
      simp only [waysOfLength, List.mem_flatMap, List.mem_map, Prod.mk.injEq]
      constructor
      · rintro ⟨⟨before, source⟩, inWays, ⟨turn, target⟩, leaves, rfl, rfl⟩
        obtain ⟨way, isLength⟩ := ih.mp inWays
        cases found : graph.node? source with
        | none => simp [found] at leaves
        | some node =>
            refine ⟨way.snoc found (by simpa [found] using leaves), ?_⟩
            rw [List.length_append, isLength, List.length_singleton]
      · rintro ⟨longer, isLength⟩
        rcases way_iff.mp longer with ⟨rfl, _⟩ | ⟨before, source, node, turn, way, found, taken, rfl⟩
        · contradiction
        · refine ⟨(before, source), ih.mpr ⟨way, by simpa using isLength⟩, (turn, id), ?_, rfl, rfl⟩
          simpa [found] using taken

/-- All ways to a node that visit no more nodes than there are. -/
def ways (graph : DecisionGraph) (id : NodeId) : List (List Turn) :=
  ((List.range graph.size).flatMap graph.waysOfLength).filterMap fun way =>
    if way.2 = id then some way.1 else none

theorem Path.length_le_of_descending (descending : Descending graph.nodes)
    (path : graph.Path graph.root turns id) : id.index + turns.length ≤ graph.root.index := by
  induction path with
  | nil => simp
  | snoc _ found taken ih =>
      have lower := descending _ _ found _ (Node.mem_successors_of_turn taken)
      rw [List.length_append, List.length_singleton]
      omega

theorem mem_ways_iff (descending : Descending graph.nodes) (inside : graph.root.index < graph.size) :
    turns ∈ graph.ways id ↔ graph.Way turns id := by
  simp only [ways, List.mem_filterMap, List.mem_flatMap, List.mem_range, Option.ite_none_right_eq_some,
    Option.some.injEq]
  constructor
  · rintro ⟨⟨way, target⟩, ⟨length, _, inWays⟩, rfl, rfl⟩
    exact (mem_waysOfLength.mp inWays).1
  · intro way
    refine ⟨(turns, id), ⟨turns.length, ?_, mem_waysOfLength.mpr ⟨way, rfl⟩⟩, rfl, rfl⟩
    have short := way.path.length_le_of_descending descending
    omega

end DecisionGraph

end MatchCompiler
