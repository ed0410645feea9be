import MatchCompiler.Proofs.DecisionGraph.Order
import MatchCompiler.Walk

/-!
# The course of a walk

`Visits` tells the nodes that a walk comes to, with its progress there, and
`Ends` how a walk from a node comes to an end. Neither counts steps; on a graph
without cycles the bound on the steps of a walk is never met.
-/

set_option autoImplicit false

namespace MatchCompiler

namespace Advance

variable {target : Type}

theorem choose_eq_proceed {subject : Temp} {next : Value → target} {progress after : Progress}
    {aim : target} (advanced : Advance.choose subject next progress = .proceed aim after) :
    ∃ value, progress.slots.get? subject = some value ∧ aim = next value ∧ after = progress := by
  unfold choose Slots.read at advanced
  cases found : progress.slots.get? subject with
  | none => simp [found] at advanced
  | some value =>
      simp only [found, Advance.proceed.injEq] at advanced
      exact ⟨value, rfl, advanced.1.symm, advanced.2.symm⟩

theorem access_eq_proceed {table : AccessTable} {made : Access} {next aim : target}
    {progress after : Progress}
    (advanced : Advance.access table made next progress = .proceed aim after) :
    aim = next ∧ ∃ slots, progress.slots.perform table made = .ok slots ∧
      after = { progress with slots } := by
  unfold access at advanced
  cases performed : progress.slots.perform table made with
  | error error => simp [performed] at advanced
  | ok slots =>
      simp only [performed, Advance.proceed.injEq] at advanced
      exact ⟨advanced.1.symm, slots, rfl, advanced.2.symm⟩

theorem bind_eq_proceed {bindings : List Binding} {next aim : target} {progress after : Progress}
    (advanced : Advance.bind bindings next progress = .proceed aim after) :
    aim = next ∧ ∃ bound, progress.slots.capture bindings = .ok bound ∧
      after = { progress with bound } := by
  unfold bind at advanced
  cases captured : progress.slots.capture bindings with
  | error error => simp [captured] at advanced
  | ok bound =>
      simp only [captured, Advance.proceed.injEq] at advanced
      exact ⟨advanced.1.symm, bound, rfl, advanced.2.symm⟩

theorem guard_eq_proceed {oracle : GuardOracle} {arm : Nat} {bindings : List Binding}
    {condition : Guard} {accepted aim : target} {rejected : Option target}
    {progress after : Progress}
    (advanced : Advance.guard oracle arm bindings condition accepted rejected progress =
      .proceed aim after) :
    ∃ bound, progress.slots.capture bindings = .ok bound ∧
      ((aim = accepted ∧ oracle progress.calls ⟨condition, bound⟩ = .ok true ∧
          after = ⟨progress.slots, bound, progress.calls ++ [⟨condition, bound⟩]⟩) ∨
        (rejected = some aim ∧ oracle progress.calls ⟨condition, bound⟩ = .ok false ∧
          after = ⟨progress.slots, [], progress.calls ++ [⟨condition, bound⟩]⟩)) := by
  unfold guard at advanced
  cases captured : progress.slots.capture bindings with
  | error error => simp [captured] at advanced
  | ok bound =>
      refine ⟨bound, rfl, ?_⟩
      simp only [captured] at advanced
      cases answered : oracle progress.calls ⟨condition, bound⟩ with
      | error error => simp [answered] at advanced
      | ok accepts =>
          cases accepts with
          | true =>
              simp only [answered, Advance.proceed.injEq] at advanced
              exact Or.inl ⟨advanced.1.symm, rfl, advanced.2.symm⟩
          | false =>
              cases rejected with
              | none => simp [answered] at advanced
              | some fallthrough =>
                  simp only [answered, Advance.proceed.injEq] at advanced
                  exact Or.inr ⟨by rw [advanced.1], rfl, advanced.2.symm⟩

section Halt

variable {table : AccessTable} {made : Access} {next accepted : target} {progress : Progress}
  {subject : Temp} {bindings : List Binding} {run : Run}

theorem access_eq_halt (halted : Advance.access table made next progress = .halt run) :
    ∃ error, progress.slots.perform table made = .error error ∧
      run = progress.stop (.error error) := by
  unfold access at halted
  cases performed : progress.slots.perform table made with
  | error error =>
      simp only [performed, Advance.halt.injEq] at halted
      exact ⟨error, rfl, halted.symm⟩
  | ok slots => simp [performed] at halted

theorem choose_eq_halt {next : Value → target}
    (halted : Advance.choose subject next progress = .halt run) :
    progress.slots.get? subject = none ∧ run = progress.stop (.error (.emptySlot subject)) := by
  unfold choose Slots.read at halted
  cases found : progress.slots.get? subject with
  | none =>
      simp only [found, Advance.halt.injEq] at halted
      exact ⟨rfl, halted.symm⟩
  | some value => simp [found] at halted

theorem bind_eq_halt (halted : Advance.bind bindings next progress = .halt run) :
    ∃ error, progress.slots.capture bindings = .error error ∧
      run = progress.stop (.error error) := by
  unfold bind at halted
  cases captured : progress.slots.capture bindings with
  | error error =>
      simp only [captured, Advance.halt.injEq] at halted
      exact ⟨error, rfl, halted.symm⟩
  | ok bound => simp [captured] at halted

/-- A guard node stops a match where a variable has no value, where the guard
fails, and where it rejects with nowhere to go on. -/
theorem guard_eq_halt {oracle : GuardOracle} {arm : Nat} {condition : Guard}
    {rejected : Option target}
    (halted : Advance.guard oracle arm bindings condition accepted rejected progress =
      .halt run) :
    (∃ error, progress.slots.capture bindings = .error error ∧ run.result = .error error) ∨
      (∃ call error, oracle progress.calls call = .error error ∧ run.result = .error error) ∨
        (rejected = none ∧ run.result = .error (.noFallthrough arm)) := by
  unfold guard at halted
  cases captured : progress.slots.capture bindings with
  | error error =>
      simp only [captured, Advance.halt.injEq] at halted
      exact Or.inl ⟨error, rfl, by rw [← halted]; rfl⟩
  | ok bound =>
      simp only [captured] at halted
      cases answered : oracle progress.calls ⟨condition, bound⟩ with
      | error error =>
          simp only [answered, Advance.halt.injEq] at halted
          exact Or.inr (Or.inl ⟨_, error, answered, by rw [← halted]; rfl⟩)
      | ok accepts =>
          cases accepts with
          | true => simp [answered] at halted
          | false =>
              cases rejected with
              | none =>
                  simp only [answered, Advance.halt.injEq] at halted
                  exact Or.inr (Or.inr ⟨rfl, by rw [← halted]; rfl⟩)
              | some fallthrough => simp [answered] at halted

end Halt

end Advance

namespace Node

section Advance

variable {table : AccessTable} {typing : Typing} {oracle : GuardOracle} {progress : Progress}
  {arm : Nat} {label : Label} {bindings : List Binding} {condition : Guard} {accepted : NodeId}
  {bound : List (Symbol × Value)}

theorem advance_test {asked : Test} {onTrue onFalse : NodeId} {value : Value}
    (filled : progress.slots.get? asked.subject = some value) :
    advance table typing oracle progress (.test asked onTrue onFalse) =
      .proceed (if asked.predicate.holds typing value then onTrue else onFalse) progress := by
  simp only [advance, Advance.choose, Slots.read, filled]

theorem advance_bind {rejected : Option NodeId}
    (captured : progress.slots.capture bindings = .ok bound) :
    advance table typing oracle progress (.bind arm label bindings none accepted rejected) =
      .proceed accepted { progress with bound } := by
  simp only [advance, Advance.bind, captured]

theorem advance_accepted {rejected : Option NodeId}
    (captured : progress.slots.capture bindings = .ok bound)
    (answered : oracle progress.calls ⟨condition, bound⟩ = .ok true) :
    advance table typing oracle progress
        (.bind arm label bindings (some condition) accepted rejected) =
      .proceed accepted ⟨progress.slots, bound, progress.calls ++ [⟨condition, bound⟩]⟩ := by
  simp only [advance, Advance.guard, captured, answered]

theorem advance_rejected {rejected : NodeId}
    (captured : progress.slots.capture bindings = .ok bound)
    (answered : oracle progress.calls ⟨condition, bound⟩ = .ok false) :
    advance table typing oracle progress
        (.bind arm label bindings (some condition) accepted (some rejected)) =
      .proceed rejected ⟨progress.slots, [], progress.calls ++ [⟨condition, bound⟩]⟩ := by
  simp only [advance, Advance.guard, captured, answered]

theorem advance_guardFailed {rejected : Option NodeId} {error : WalkError}
    (captured : progress.slots.capture bindings = .ok bound)
    (answered : oracle progress.calls ⟨condition, bound⟩ = .error error) :
    advance table typing oracle progress
        (.bind arm label bindings (some condition) accepted rejected) =
      .halt ⟨progress.calls ++ [⟨condition, bound⟩], .error error⟩ := by
  simp only [advance, Advance.guard, captured, answered, Progress.stop]

theorem advance_access {made : Access} {next : NodeId} {slots : Slots Value}
    (performed : progress.slots.perform table made = .ok slots) :
    advance table typing oracle progress (.access made next) =
      .proceed next { progress with slots } := by
  simp only [advance, Advance.access, performed]

theorem advance_accessFailed {made : Access} {next : NodeId} {error : WalkError}
    (failed : progress.slots.perform table made = .error error) :
    advance table typing oracle progress (.access made next) =
      .halt ⟨progress.calls, .error error⟩ := by
  simp only [advance, Advance.access, failed, Progress.stop]

end Advance

theorem mem_successors_of_proceedBy {table : AccessTable} {isInstance : Value → Ty → Bool}
    {oracle : GuardOracle} {progress after : Progress} {node : Node} {next : NodeId}
    (advanced : node.advanceBy table isInstance oracle progress = .proceed next after) :
    next ∈ node.successors := by
  cases node with
  | access made target =>
      obtain ⟨rfl, _⟩ := Advance.access_eq_proceed advanced
      exact List.mem_cons_self
  | test asked onTrue onFalse =>
      obtain ⟨value, _, rfl, _⟩ := Advance.choose_eq_proceed advanced
      split
      · exact List.mem_cons_self
      · exact List.mem_cons_of_mem _ List.mem_cons_self
  | bind arm label bindings guard accepted rejected =>
      cases guard with
      | none =>
          obtain ⟨rfl, _⟩ := Advance.bind_eq_proceed advanced
          exact List.mem_cons_self
      | some condition =>
          obtain ⟨_, _, ⟨rfl, _⟩ | ⟨rfl, _⟩⟩ := Advance.guard_eq_proceed advanced
          · exact List.mem_cons_self
          · exact List.mem_cons_of_mem _ (by simp)
  | success arm label => simp [advanceBy] at advanced
  | failure => simp [advanceBy] at advanced

theorem advance_eq_advanceBy (table : AccessTable) (typing : Typing) (oracle : GuardOracle)
    (progress : Progress) (node : Node) :
    node.advance table typing oracle progress =
      node.advanceBy table typing.isInstance oracle progress := by
  have same (value : Value) (predicate : Predicate) :
      predicate.holds typing value = predicate.holdsBy typing.isInstance value := by
    cases predicate <;> rfl
  cases node with
  | test asked onTrue onFalse => simp only [advance, advanceBy, same]
  | bind arm label bindings guard accepted rejected => cases guard <;> rfl
  | _ => rfl

theorem mem_successors_of_proceed {table : AccessTable} {typing : Typing} {oracle : GuardOracle}
    {progress after : Progress} {node : Node} {next : NodeId}
    (advanced : node.advance table typing oracle progress = .proceed next after) :
    next ∈ node.successors :=
  mem_successors_of_proceedBy ((advance_eq_advanceBy ..).symm.trans advanced)

theorem leaf_of_halt {table : AccessTable} {isInstance : Value → Ty → Bool} {oracle : GuardOracle}
    {progress : Progress} {node : Node} {run : Run} {outcome : Outcome}
    (halted : node.advanceBy table isInstance oracle progress = .halt run)
    (ended : run.result = .ok outcome) :
    (∃ arm label, node = .success arm label ∧ outcome = .matched arm label progress.bound) ∨
      (node = .failure ∧ outcome = .noMatch) := by
  cases node with
  | access made next =>
      obtain ⟨error, _, rfl⟩ := Advance.access_eq_halt halted
      contradiction
  | test asked onTrue onFalse =>
      obtain ⟨_, rfl⟩ := Advance.choose_eq_halt halted
      contradiction
  | bind arm label bindings guard accepted rejected =>
      cases guard with
      | none =>
          obtain ⟨error, _, rfl⟩ := Advance.bind_eq_halt halted
          contradiction
      | some condition =>
          rcases Advance.guard_eq_halt halted with
            ⟨error, _, failed⟩ | ⟨_, error, _, failed⟩ | ⟨_, failed⟩
          all_goals
            rw [failed] at ended
            contradiction
  | success arm label =>
      cases halted
      exact Or.inl ⟨arm, label, rfl, (Except.ok.inj ended).symm⟩
  | failure =>
      cases halted
      exact Or.inr ⟨rfl, (Except.ok.inj ended).symm⟩

theorem eq_success_of_halt {table : AccessTable} {typing : Typing} {oracle : GuardOracle}
    {progress : Progress} {node : Node} {run : Run} {arm : Nat} {label : Label}
    {bindings : List (Symbol × Value)}
    (halted : node.advance table typing oracle progress = .halt run)
    (matched : run.result = .ok (.matched arm label bindings)) :
    node = .success arm label ∧ progress.bound = bindings := by
  rw [advance_eq_advanceBy] at halted
  rcases leaf_of_halt halted matched with ⟨_, _, rfl, same⟩ | ⟨_, same⟩
  · cases same
    exact ⟨rfl, rfl⟩
  · contradiction

end Node

namespace DecisionGraph

variable {graph : DecisionGraph} {typing : Typing} {oracle : GuardOracle}

/-- The nodes that a walk on an input comes to, with what it has done by then. -/
inductive Visits (graph : DecisionGraph) (typing : Typing) (oracle : GuardOracle)
    (input : Value) : NodeId → Progress → Prop
  | root : Visits graph typing oracle input graph.root (.start graph.table input)
  | next {id target : NodeId} {progress after : Progress} {node : Node}
      (visited : Visits graph typing oracle input id progress)
      (found : graph.node? id = some node)
      (advanced : node.advance graph.table typing oracle progress = .proceed target after) :
      Visits graph typing oracle input target after

/-- A walk from a node, with some progress, comes to an end. -/
inductive Ends (graph : DecisionGraph) (isInstance : Value → Ty → Bool) (oracle : GuardOracle) :
    NodeId → Progress → Run → Prop
  | halt {id : NodeId} {progress : Progress} {node : Node} {run : Run}
      (found : graph.node? id = some node)
      (advanced : node.advanceBy graph.table isInstance oracle progress = .halt run) :
      Ends graph isInstance oracle id progress run
  | proceed {id target : NodeId} {progress after : Progress} {node : Node} {run : Run}
      (found : graph.node? id = some node)
      (advanced : node.advanceBy graph.table isInstance oracle progress = .proceed target after)
      (behind : Ends graph isInstance oracle target after run) :
      Ends graph isInstance oracle id progress run

theorem exists_of_matched {input : Value} {arm : Nat} {label : Label}
    {bindings : List (Symbol × Value)} (fuel : Nat) {id : NodeId} {progress : Progress}
    (visited : graph.Visits typing oracle input id progress)
    (matched : (graph.walkFrom typing oracle fuel id progress).result =
      .ok (.matched arm label bindings)) :
    ∃ leaf final, graph.Visits typing oracle input leaf final ∧
      graph.node? leaf = some (.success arm label) ∧ final.bound = bindings := by
  induction fuel generalizing id progress with
  | zero => contradiction
  | succ fuel ih =>
      unfold walkFrom at matched
      cases found : graph.node? id with
      | none =>
          rw [found] at matched
          contradiction
      | some node =>
          simp only [found] at matched
          cases advanced : node.advance graph.table typing oracle progress with
          | proceed next after =>
              rw [advanced] at matched
              exact ih (visited.next found advanced) matched
          | halt run =>
              rw [advanced] at matched
              obtain ⟨rfl, isBound⟩ := Node.eq_success_of_halt advanced matched
              exact ⟨id, progress, visited, found, isBound⟩

theorem node?_inside {id : NodeId} {node : Node} (found : graph.node? id = some node) :
    id.index < graph.size :=
  (Array.getElem?_eq_some_iff.mp found).1

theorem Ends.inside {isInstance : Value → Ty → Bool} {id : NodeId} {progress : Progress}
    {run : Run} (ends : graph.Ends isInstance oracle id progress run) :
    id.index < graph.size := by
  cases ends with
  | halt found _ => exact node?_inside found
  | proceed found _ _ => exact node?_inside found

theorem walkFrom_halt {fuel : Nat} {id : NodeId} {progress : Progress} {node : Node} {run : Run}
    (found : graph.node? id = some node)
    (advanced : node.advance graph.table typing oracle progress = .halt run) :
    graph.walkFrom typing oracle (fuel + 1) id progress = run := by
  simp only [walkFrom, found, advanced]

theorem walkFrom_proceed {fuel : Nat} {id target : NodeId} {progress after : Progress}
    {node : Node} (found : graph.node? id = some node)
    (advanced : node.advance graph.table typing oracle progress = .proceed target after) :
    graph.walkFrom typing oracle (fuel + 1) id progress =
      graph.walkFrom typing oracle fuel target after := by
  simp only [walkFrom, found, advanced]

theorem walkFrom_eq_walkFromBy (fuel : Nat) (id : NodeId) (progress : Progress) :
    graph.walkFrom typing oracle fuel id progress =
      graph.walkFromBy typing.isInstance oracle fuel id progress := by
  induction fuel generalizing id progress with
  | zero => rfl
  | succ fuel ih => simp only [walkFrom, walkFromBy, Node.advance_eq_advanceBy, ih]

/-- A walk is the walk of a runtime that answers by the types that values report. -/
theorem walk_eq_walkBy (graph : DecisionGraph) (typing : Typing) (oracle : GuardOracle)
    (input : Value) :
    graph.walk typing oracle input = graph.walkBy typing.isInstance oracle input :=
  walkFrom_eq_walkFromBy _ _ _

section Typed

variable {id target : NodeId} {progress after : Progress} {node : Node} {run : Run}

theorem Ends.haltTyped (found : graph.node? id = some node)
    (advanced : node.advance graph.table typing oracle progress = .halt run) :
    graph.Ends typing.isInstance oracle id progress run :=
  .halt found ((Node.advance_eq_advanceBy ..).symm.trans advanced)

theorem Ends.proceedTyped (found : graph.node? id = some node)
    (advanced : node.advance graph.table typing oracle progress = .proceed target after)
    (behind : graph.Ends typing.isInstance oracle target after run) :
    graph.Ends typing.isInstance oracle id progress run :=
  .proceed found ((Node.advance_eq_advanceBy ..).symm.trans advanced) behind

end Typed

/-- Where some number falls along every edge, no walk is longer than it. -/
theorem Ends.walkFromBy_eq {isInstance : Value → Ty → Bool} {id : NodeId} {progress : Progress}
    {run : Run} (height : NodeId → Nat) (live : NodeId → Prop)
    (closed : ∀ {source target}, live source → graph.Edge source target →
      target.index < graph.size → live target ∧ height target < height source)
    (ends : graph.Ends isInstance oracle id progress run) (starts : live id) {fuel : Nat}
    (enough : height id < fuel) : graph.walkFromBy isInstance oracle fuel id progress = run := by
  induction ends generalizing fuel with
  | halt found advanced =>
      obtain ⟨fuel, rfl⟩ := Nat.exists_eq_succ_of_ne_zero (Nat.ne_of_gt (Nat.zero_lt_of_lt enough))
      simp only [walkFromBy, found, advanced]
  | proceed found advanced behind ih =>
      obtain ⟨fuel, rfl⟩ := Nat.exists_eq_succ_of_ne_zero (Nat.ne_of_gt (Nat.zero_lt_of_lt enough))
      have edge := edge_of_node found (Node.mem_successors_of_proceedBy advanced)
      obtain ⟨lives, lower⟩ := closed starts edge behind.inside
      simp only [walkFromBy, found, advanced]
      exact ih lives (by omega)

/-- On a graph without cycles a walk ends before its bound. -/
theorem Ends.walkBy_eq {isInstance : Value → Ty → Bool} (acyclic : graph.Acyclic) {input : Value}
    {run : Run} (ends : graph.Ends isInstance oracle graph.root (.start graph.table input) run) :
    graph.walkBy isInstance oracle input = run := by
  have sized := graph.length_topologicalOrder_le
  have rootMember : graph.root ∈ graph.topologicalOrder :=
    (graph.mem_topologicalOrder graph.root).mpr ⟨.refl, ends.inside⟩
  refine ends.walkFromBy_eq (fun id => graph.topologicalOrder.length - graph.rank id)
    (· ∈ graph.topologicalOrder) ?_ rootMember (by omega)
  intro source target member edge inside
  refine ⟨mem_topologicalOrder_of_edge member edge inside, ?_⟩
  have onward := rank_lt_of_edge acyclic member edge inside
  have short := rank_lt_length (mem_topologicalOrder_of_edge member edge inside)
  omega

end DecisionGraph

end MatchCompiler
