import MatchCompiler.Proofs.Checklist.Order
import MatchCompiler.Proofs.DecisionGraph.Shape
import MatchCompiler.Proofs.Tracking

/-!
# Arms that own their decomposition calls

Where each arm calls decomposition methods on its own behalf, two arms have no
call in common, and nothing that is reached through one. The owner is written on
the calls alone. All else behind a call is kept apart because a temp is told by
the access that fills it, and the input of that access by another one, back to
the call.
-/

set_option autoImplicit false

namespace MatchCompiler

/-! ## What lies behind a call -/

def AccessKind.isCall : AccessKind → Bool
  | .deconstruct .. => true
  | _ => false

namespace AccessTable

def IsCall (table : AccessTable) (made : Access) : Prop :=
  ∃ entry, table.access? made = some entry ∧ entry.kind.isCall = true

/-- An access on the way from the match input to a temp. -/
inductive LeadsTo (table : AccessTable) (made : Access) : Temp → Prop
  | output {temp : Temp} {declared : TempEntry} (found : table.temp? temp = some declared)
      (filledBy : declared.source = some made) : LeadsTo table made temp
  | onward {temp : Temp} {declared : TempEntry} {last : Access} {entry : AccessEntry}
      (found : table.temp? temp = some declared) (filledBy : declared.source = some last)
      (known : table.access? last = some entry) (before : LeadsTo table made entry.input) :
      LeadsTo table made temp

/-- A temp that is reached through a call. -/
def BehindCall (table : AccessTable) (temp : Temp) : Prop :=
  ∃ call, table.IsCall call ∧ table.LeadsTo call temp

variable {table : AccessTable} {made : Access} {temp : Temp}

theorem leadsTo_of_mem_pathWithin {position fuel : Nat}
    (onPath : (made, position) ∈ table.pathWithin fuel temp) : table.LeadsTo made temp := by
  induction fuel generalizing temp with
  | zero => exact absurd onPath List.not_mem_nil
  | succ fuel ih =>
      rw [pathWithin] at onPath
      split at onPath
      · rename_i type last output found
        split at onPath
        · rename_i entry known
          rcases List.mem_append.mp onPath with before | isLast
          · exact .onward found rfl known (ih before)
          · obtain ⟨rfl, rfl⟩ := Prod.mk.inj (List.mem_singleton.mp isLast)
            exact .output found rfl
        · obtain ⟨rfl, rfl⟩ := Prod.mk.inj (List.mem_singleton.mp onPath)
          exact .output found rfl
      · exact absurd onPath List.not_mem_nil

end AccessTable

/-- A call, or a step that looks at what lies behind one. -/
def Step.Decomposes (table : AccessTable) (step : Step) : Prop :=
  (∃ made, step = .access made ∧ table.IsCall made) ∨
    ∃ temp, step.operand? table = some temp ∧ table.BehindCall temp

theorem Step.Provides.mem_source {table : AccessTable} {steps : List Step} {temp : Temp}
    {declared : TempEntry} {made : Access} (provides : Step.Provides table steps temp)
    (rooted : table.Rooted) (found : table.temp? temp = some declared)
    (filledBy : declared.source = some made) : .access made ∈ steps := by
  rcases provides with rfl | ⟨other, member, _, filled⟩
  · obtain ⟨entry, isRoot, noSource⟩ := rooted
    obtain rfl := Option.some.inj (found.symm.trans isRoot)
    rw [filledBy] at noSource
    contradiction
  · obtain ⟨entry, alsoFound, alsoFilledBy⟩ := AccessTable.mem_outputsOf.mp filled
    obtain rfl := Option.some.inj (found.symm.trans alsoFound)
    obtain rfl := Option.some.inj (filledBy.symm.trans alsoFilledBy)
    exact member

namespace Checklist

/-- A temp that a step looks at or a variable is bound to. -/
def Touches (table : AccessTable) (checklist : Checklist) (temp : Temp) : Prop :=
  (∃ step ∈ checklist.steps, step.operand? table = some temp) ∨
    ∃ binding ∈ checklist.bindings, binding.temp = temp

variable {table : AccessTable} {checklist : Checklist} {made : Access} {temp : Temp} {step : Step}

theorem Closed.provides_operand (closed : checklist.Closed table) (member : step ∈ checklist.steps)
    (looksAt : step.operand? table = some temp) :
    Step.Provides table checklist.steps temp := by
  obtain ⟨front, back, split⟩ := List.append_of_mem member
  have supplied : Step.Provides table ([] ++ front) temp :=
    closed.ordered front step back split temp looksAt
  refine supplied.mono fun other inFront => ?_
  rw [split]
  exact List.mem_append_left _ inFront

theorem Closed.provides (closed : checklist.Closed table) (touches : checklist.Touches table temp) :
    Step.Provides table checklist.steps temp := by
  rcases touches with ⟨step, member, looksAt⟩ | ⟨binding, member, rfl⟩
  · exact closed.provides_operand member looksAt
  · exact closed.bound binding member

/-- A checklist makes every access on the way to the temps that it fills. -/
theorem Closed.mem_of_leadsTo (closed : checklist.Closed table) (rooted : table.Rooted)
    (leads : table.LeadsTo made temp) (provided : Step.Provides table checklist.steps temp) :
    .access made ∈ checklist.steps := by
  induction leads with
  | output found filledBy => exact provided.mem_source rooted found filledBy
  | onward found filledBy known _ ih =>
      have member := provided.mem_source rooted found filledBy
      exact ih (closed.provides_operand member (by simp [Step.operand?, known]))

end Checklist

/-! ## Whose calls a pattern makes -/

/-- If the step is a call, it has this owner. -/
def Step.OwnedBy (owner : Option Nat) (table : AccessTable) (step : Step) : Prop :=
  ∀ made input method arity other, step = .access made →
    table.access? made = some ⟨input, .deconstruct method arity other⟩ → other = owner

/-- Every call among the steps has this owner. -/
def Step.AllOwnedBy (owner : Option Nat) (table : AccessTable) (steps : List Step) : Prop :=
  ∀ step ∈ steps, step.OwnedBy owner table

namespace Step.AllOwnedBy

variable {owner : Option Nat} {table : AccessTable} {step : Step} {steps rest : List Step}

theorem nil : AllOwnedBy owner table [] :=
  fun _ member => absurd member List.not_mem_nil

theorem cons (first : step.OwnedBy owner table) (later : AllOwnedBy owner table rest) :
    AllOwnedBy owner table (step :: rest) :=
  List.forall_mem_cons.mpr ⟨first, later⟩

theorem append (front : AllOwnedBy owner table steps) (back : AllOwnedBy owner table rest) :
    AllOwnedBy owner table (steps ++ rest) :=
  List.forall_mem_append.mpr ⟨front, back⟩

end Step.AllOwnedBy

namespace Pattern

variable {types : TypeOracle} {owner : Option Nat} {table : AccessTable} {input temp : Temp}
  {kind : AccessKind} {type : Ty} {step : Step} {steps : List Step}

theorem isCall_ofMember (member : Member) : (AccessKind.ofMember member).isCall = false := by
  cases member <;> rfl

theorem ownedBy_test (asked : Test) : (Step.test asked).OwnedBy owner table :=
  nofun

theorem Reads.ownedBy (reads : Reads table input kind type step temp) (noCall : kind.isCall = false) :
    step.OwnedBy owner table := by
  obtain ⟨made, rfl, known, _⟩ := reads
  rintro _ _ method arity other ⟨⟩ isCall
  obtain ⟨rfl, rfl⟩ := AccessEntry.mk.inj (Option.some.inj (known.symm.trans isCall))
  contradiction

theorem ownedBy_nullCheck : Step.AllOwnedBy owner table (nullCheck types table input) := by
  unfold nullCheck
  split
  · exact .cons (ownedBy_test _) .nil
  · exact .nil

theorem Converts.ownedBy {strict : Bool} {target : Ty}
    (converts : Converts types strict target table input steps temp) :
    Step.AllOwnedBy owner table steps := by
  unfold Converts at converts
  split at converts
  · obtain ⟨rfl, _⟩ := converts
    split
    · exact ownedBy_nullCheck
    · exact .nil
  · obtain ⟨cast, reads, rfl⟩ := converts
    exact .append ownedBy_nullCheck (.cons (ownedBy_test _) (.cons (reads.ownedBy rfl) .nil))
  · obtain ⟨cast, reads, rfl⟩ := converts
    exact .cons (ownedBy_test _) (.cons (reads.ownedBy rfl) .nil)

theorem Enters.ownedBy {target : Option Ty} (enters : Enters types target table input steps temp) :
    Step.AllOwnedBy owner table steps := by
  cases target with
  | none =>
      rw [enters.1]
      exact ownedBy_nullCheck
  | some type => exact Converts.ownedBy enters

mutual

theorem lays_ownedBy (types : TypeOracle) (owner : Option Nat) (table : AccessTable) :
    ∀ (pattern : Pattern) {input : Temp} {fragment : Fragment},
      Lays types owner table pattern input fragment → Step.AllOwnedBy owner table fragment.steps
  | .discard _, input, fragment, lays => by
      simp only [Lays] at lays
      rw [lays]
      exact .nil
  | .var _ name, input, fragment, lays => by
      simp only [Lays] at lays
      rw [lays]
      exact .nil
  | .typed _ target name, input, fragment, lays => by
      simp only [Lays] at lays
      obtain ⟨steps, temp, converts, rfl⟩ := lays
      exact converts.ownedBy.append .nil
  | .constant _ value type, input, fragment, lays => by
      simp only [Lays] at lays
      split at lays
      · rw [lays]
        exact .cons (ownedBy_test _) .nil
      · obtain ⟨steps, temp, converts, rfl⟩ := lays
        exact converts.ownedBy.append (.cons (ownedBy_test _) .nil)
  | .compound _ target none members name, input, fragment, lays => by
      simp only [Lays] at lays
      obtain ⟨steps, temp, inner, enters, inside, rfl⟩ := lays
      have read := laysMembers_ownedBy types owner table members inside
      exact enters.ownedBy.append read
  | .compound _ target (some (.method method, parts)) members name, input, fragment, lays => by
      simp only [Lays] at lays
      obtain ⟨steps, temp, call, outer, inner, enters, known, outside, inside, rfl⟩ := lays
      have calls : (Step.access call).OwnedBy owner table := by
        rintro _ _ _ _ other ⟨⟩ isCall
        obtain ⟨_, sameKind⟩ := AccessEntry.mk.inj (Option.some.inj (isCall.symm.trans known))
        exact (AccessKind.deconstruct.inj sameKind).2.2
      have outputs := laysOutputs_ownedBy types owner table parts outside
      have read := laysMembers_ownedBy types owner table members inside
      exact enters.ownedBy.append (.append (.cons calls outputs) read)
  | .compound _ target (some (.tuple, parts)) members name, input, fragment, lays => by
      simp only [Lays] at lays
      obtain ⟨steps, temp, outer, inner, enters, outside, inside, rfl⟩ := lays
      have components := laysReads_ownedBy types owner table parts (fun _ => rfl) outside
      have read := laysMembers_ownedBy types owner table members inside
      exact enters.ownedBy.append (components.append read)
  | .compound _ target (some (.indexed length lengthType, parts)) members name, input, fragment,
      lays => by
      simp only [Lays] at lays
      obtain ⟨steps, temp, readLength, count, outer, inner, enters, measures, outside, inside, rfl⟩ :=
        lays
      have measured : readLength.OwnedBy owner table := measures.ownedBy (isCall_ofMember length)
      have elements := laysReads_ownedBy types owner table parts (fun _ => rfl) outside
      have read := laysMembers_ownedBy types owner table members inside
      exact enters.ownedBy.append
        (.append (.cons measured (.cons (ownedBy_test _) elements)) read)

theorem laysOutputs_ownedBy (types : TypeOracle) (owner : Option Nat) (table : AccessTable) :
    ∀ (parts : List Pattern) {call : Access} {position : Nat} {fragment : Fragment},
      LaysOutputs types owner table call parts position fragment →
      Step.AllOwnedBy owner table fragment.steps
  | [], call, position, fragment, lays => by
      simp only [LaysOutputs] at lays
      rw [lays]
      exact .nil
  | part :: parts, call, position, fragment, lays => by
      simp only [LaysOutputs] at lays
      obtain ⟨temp, head, tail, found, first, later, rfl⟩ := lays
      exact (lays_ownedBy types owner table part first).append
        (laysOutputs_ownedBy types owner table parts later)

theorem laysReads_ownedBy (types : TypeOracle) (owner : Option Nat) (table : AccessTable) :
    ∀ (parts : List Pattern) {kind : Nat → AccessKind} {position : Nat} {input : Temp}
      {fragment : Fragment}, (∀ position, (kind position).isCall = false) →
      LaysReads types owner table kind parts position input fragment →
      Step.AllOwnedBy owner table fragment.steps
  | [], kind, position, input, fragment, noCall, lays => by
      simp only [LaysReads] at lays
      rw [lays]
      exact .nil
  | part :: parts, kind, position, input, fragment, noCall, lays => by
      simp only [LaysReads] at lays
      obtain ⟨step, temp, head, tail, reads, first, later, rfl⟩ := lays
      exact .cons (reads.ownedBy (noCall position))
        ((lays_ownedBy types owner table part first).append
          (laysReads_ownedBy types owner table parts noCall later))

theorem laysMembers_ownedBy (types : TypeOracle) (owner : Option Nat) (table : AccessTable) :
    ∀ (members : List (Member × Pattern)) {input : Temp} {fragment : Fragment},
      LaysMembers types owner table members input fragment →
      Step.AllOwnedBy owner table fragment.steps
  | [], input, fragment, lays => by
      simp only [LaysMembers] at lays
      rw [lays]
      exact .nil
  | (member, pattern) :: members, input, fragment, lays => by
      simp only [LaysMembers] at lays
      obtain ⟨step, temp, head, tail, reads, first, later, rfl⟩ := lays
      exact .cons (reads.ownedBy (isCall_ofMember member))
        ((lays_ownedBy types owner table pattern first).append
          (laysMembers_ownedBy types owner table members later))

end

end Pattern

/-! ## Arms that own their calls -/

namespace Checklist

/-- A checklist in which every call is the arm's own. -/
structure Owned (table : AccessTable) (checklist : Checklist) : Prop where
  closed : checklist.Closed table
  calls : Step.AllOwnedBy (some checklist.index) table checklist.steps

/-- Two checklists with no call in common, and nothing that lies behind one. -/
structure Apart (table : AccessTable) (first second : Checklist) : Prop where
  steps : ∀ step ∈ first.steps, step.Decomposes table → step ∉ second.steps
  temps : ∀ temp, table.BehindCall temp → first.Touches table temp → ¬ second.Touches table temp

variable {table : AccessTable} {first second : Checklist} {call : Access}

theorem Owned.not_both (ownsFirst : first.Owned table) (ownsSecond : second.Owned table)
    (differ : first.index ≠ second.index) (isCall : table.IsCall call)
    (member : .access call ∈ first.steps) : .access call ∉ second.steps := by
  intro alsoMember
  obtain ⟨⟨input, kind⟩, known, kindIsCall⟩ := isCall
  cases kind with
  | deconstruct method arity other =>
      have isFirst := ownsFirst.calls _ member call input method arity other rfl known
      have isSecond := ownsSecond.calls _ alsoMember call input method arity other rfl known
      exact differ (Option.some.inj (isFirst.symm.trans isSecond))
  | _ => contradiction

theorem Owned.apart (rooted : table.Rooted) (ownsFirst : first.Owned table)
    (ownsSecond : second.Owned table) (differ : first.index ≠ second.index) :
    first.Apart table second := by
  have temps : ∀ temp, table.BehindCall temp → first.Touches table temp →
      ¬ second.Touches table temp := by
    rintro temp ⟨call, isCall, leads⟩ touchesFirst touchesSecond
    have inFirst := ownsFirst.closed.mem_of_leadsTo rooted leads
      (ownsFirst.closed.provides touchesFirst)
    have inSecond := ownsSecond.closed.mem_of_leadsTo rooted leads
      (ownsSecond.closed.provides touchesSecond)
    exact ownsFirst.not_both ownsSecond differ isCall inFirst inSecond
  refine ⟨?_, temps⟩
  rintro step member (⟨call, rfl, isCall⟩ | ⟨temp, looksAt, behind⟩) alsoMember
  · exact ownsFirst.not_both ownsSecond differ isCall member alsoMember
  · exact temps temp behind (Or.inl ⟨step, member, looksAt⟩) (Or.inl ⟨step, alsoMember, looksAt⟩)

end Checklist

section Answers

variable {table : AccessTable} {declared : TempEntry} {checklist : Checklist}

theorem Arm.checklist_owned {types : TypeOracle} {index : Nat} {arm : Arm} {after : AccessTable}
    (found : table.temp? .root = some declared)
    (laid : arm.checklist types .perArm index table = .ok (checklist, after)) :
    table.Extends after fun final => checklist.Owned final := by
  have extended := Arm.checklist_extends found laid
  obtain ⟨_, owner, fragment, owned, flattened, rfl⟩ := Arm.checklist_eq_ok.mp laid
  have isOwn : owner = some index := by
    unfold Sharing.owner at owned
    dsimp only at owned
    split at owned
    · exact (Except.ok.inj owned).symm
    · contradiction
  refine extended.imp fun final grows laidOut => ⟨laidOut.closed, ?_⟩
  have lays := (Pattern.flatten_extends found flattened).laidOut final grows
  rw [isOwn] at lays
  exact Pattern.lays_ownedBy types (some index) final arm.pattern lays

theorem AccessTable.index_of_answersTo {requests : List Request} {position : Nat}
    (answered : (table.answersTo requests)[position]? = some (.ok checklist)) :
    (requests.map Request.index)[position]? = some checklist.index := by
  induction requests generalizing table position with
  | nil => simp [answersTo] at answered
  | cons request requests ih =>
      cases position with
      | zero =>
          rcases served : request.serve table with ⟨answer, after⟩
          simp only [answersTo, served, List.getElem?_cons_zero, Option.some.injEq] at answered
          rw [answered] at served
          obtain ⟨_, _, _, _, _, rfl⟩ := Arm.checklist_eq_ok.mp (Request.serve_eq_ok.mp served)
          rfl
      | succ position => exact ih answered

theorem AccessTable.owned_of_mem_answersTo (requests : List Request)
    (perArm : ∀ request ∈ requests, request.sharing = .perArm) :
    ∀ {table : AccessTable} {declared : TempEntry}, table.temp? .root = some declared →
      .ok checklist ∈ table.answersTo requests →
      checklist.Owned (table.afterRequests requests) := by
  induction requests with
  | nil =>
      intro table declared found answered
      exact absurd answered List.not_mem_nil
  | cons request requests ih =>
      intro table declared found answered
      have first := request.serve_extends found
      have stillFound := first.grows.temp? found
      rcases List.mem_cons.mp answered with isFirst | later
      · rcases served : request.serve table with ⟨answer, after⟩
        obtain rfl : answer = .ok checklist := by rw [isFirst, served]
        have laid := Request.serve_eq_ok.mp served
        rw [perArm request List.mem_cons_self] at laid
        have further := AccessTable.afterRequests_extends requests stillFound
        rw [served] at further
        have owned := (Arm.checklist_owned found laid).laidOut _ further.grows
        rw [AccessTable.afterRequests, List.foldl_cons, served]
        exact owned
      · exact ih (fun other member => perArm other (List.mem_cons_of_mem _ member)) stillFound later

end Answers

/-! ## Graphs over arms that own their calls -/

theorem Node.Serves.exists_checklist {checklists : List Checklist} {nodes : Array Node} {node : Node}
    {step : Step} (serves : node.Serves checklists nodes) (carriesOut : node.step? = some step) :
    ∃ checklist ∈ checklists, step ∈ checklist.steps := by
  cases node with
  | access made next =>
      obtain rfl := Option.some.inj carriesOut
      exact serves
  | test asked onTrue onFalse =>
      obtain rfl := Option.some.inj carriesOut
      exact serves
  | _ => contradiction

namespace DecisionGraph

/-- Whatever a graph does about a call, or about what lies behind one, it does for
one arm alone. -/
structure Separates (graph : DecisionGraph) (table : AccessTable) (lists : List Checklist) :
    Prop where
  steps : ∀ id node step, graph.node? id = some node → node.step? = some step →
    step.Decomposes table →
      ∃! arm : Nat, ∃ checklist : Checklist, lists[arm]? = some checklist ∧ step ∈ checklist.steps
  bindings : ∀ id arm label bindings guard accepted rejected,
    graph.node? id = some (.bind arm label bindings guard accepted rejected) →
    ∀ binding ∈ bindings, table.BehindCall binding.temp →
      ∀ (other : Nat) (checklist : Checklist), lists[other]? = some checklist →
        checklist.Touches table binding.temp → other = arm

theorem separates_of_owned {types : TypeOracle} {options : Options} {table : AccessTable}
    {lists : List Checklist} {graph : DecisionGraph} (rooted : table.Rooted)
    (owned : ∀ checklist ∈ lists, checklist.Owned table)
    (built : ofChecklists types options table lists = .ok graph) : graph.Separates table lists := by
  have numbered := misnumbered?_eq_none_iff.mp (ofChecklists_built built).1
  have apart : ∀ (arm other : Nat) (first second : Checklist), lists[arm]? = some first →
      lists[other]? = some second → arm ≠ other → first.Apart table second := by
    intro arm other first second isFirst isSecond differ
    apply (owned first (List.mem_of_getElem? isFirst)).apart rooted
      (owned second (List.mem_of_getElem? isSecond))
    rwa [numbered arm first isFirst, numbered other second isSecond]
  constructor
  · intro id node step found carriesOut decomposes
    obtain ⟨first, member, inFirst⟩ := (serves_of_built built found).exists_checklist carriesOut
    obtain ⟨arm, isFirst⟩ := List.getElem?_of_mem member
    refine ⟨arm, ⟨first, isFirst, inFirst⟩, ?_⟩
    rintro other ⟨second, isSecond, inSecond⟩
    by_contra differ
    exact (apart arm other first second isFirst isSecond (Ne.symm differ)).steps step inFirst
      decomposes inSecond
  · intro id arm label bindings guard accepted rejected found binding member behind other second
      isSecond touched
    obtain ⟨first, isFirst, _, rfl, _⟩ := serves_of_built built found
    by_contra differ
    exact (apart arm other first second isFirst isSecond (Ne.symm differ)).temps binding.temp behind
      (Or.inr ⟨binding, member, rfl⟩) touched

end DecisionGraph

/-- Arms with different numbers that own their calls have none in common, and
nothing that is reached through one, whatever else was laid out over the table. So
a graph built from them makes each call, and does what it does behind it, for one
arm. -/
theorem Request.perArm_apart (input : Ty) (requests : List Request)
    (perArm : ∀ request ∈ requests, request.sharing = .perArm)
    (distinct : (requests.map Request.index).Nodup) :
    let table := (AccessTable.ofInput input).afterRequests requests
    let answers := (AccessTable.ofInput input).answersTo requests
    (∀ temp, (∃ passed ∈ table.pathTo temp, table.IsCall passed.1) → table.BehindCall temp) ∧
      (∀ (position other : Nat) (first second : Checklist), position ≠ other →
        answers[position]? = some (.ok first) → answers[other]? = some (.ok second) →
          first.Apart table second) ∧
      ∀ types options (lists : List Checklist) graph,
        (∀ checklist ∈ lists, Except.ok checklist ∈ answers) →
          DecisionGraph.ofChecklists types options table lists = .ok graph →
            graph.Separates table lists := by
  intro table answers
  have rooted : table.Rooted := (AccessTable.served_afterRequests input requests).lawful.rooted
  have owned : ∀ checklist, Except.ok checklist ∈ answers → checklist.Owned table :=
    fun _ => AccessTable.owned_of_mem_answersTo requests perArm rfl
  refine ⟨?_, ?_, ?_⟩
  · rintro temp ⟨⟨call, output⟩, onPath, isCall⟩
    exact ⟨call, isCall, AccessTable.leadsTo_of_mem_pathWithin onPath⟩
  · intro position other first second differ isFirst isSecond
    apply (owned first (List.mem_of_getElem? isFirst)).apart rooted
      (owned second (List.mem_of_getElem? isSecond))
    intro sameIndex
    have atPosition := AccessTable.index_of_answersTo isFirst
    have atOther := AccessTable.index_of_answersTo isSecond
    rw [← sameIndex, ← atPosition] at atOther
    obtain ⟨inside, _⟩ := List.getElem?_eq_some_iff.mp atPosition
    exact differ ((List.getElem?_inj inside distinct).mp atOther.symm)
  · intro types options lists graph answered built
    exact DecisionGraph.separates_of_owned rooted (fun _ member => owned _ (answered _ member)) built

/-- The same arm twice, with a call in an element of what it examines. -/
def pointRequests : List Request :=
  [⟨shapes.oracle, .perArm, 0, pointOfPoints⟩, ⟨shapes.oracle, .perArm, 1, pointOfPoints⟩]

/-- The element is read once for both arms and taken apart once for each. -/
theorem perArm_apart_pointRequests :
    let table := (AccessTable.ofInput Hierarchy.object).afterRequests pointRequests
    ∃ first second,
      (AccessTable.ofInput Hierarchy.object).answersTo pointRequests = [.ok first, .ok second] ∧
        .access ⟨5⟩ ∈ first.steps ∧ table.access? ⟨5⟩ = some ⟨⟨5⟩, .deconstruct ⟨0⟩ 1 (some 0)⟩ ∧
          .access ⟨4⟩ ∈ first.steps ∧ .access ⟨4⟩ ∈ second.steps ∧ first.Apart table second := by
  intro table
  have apart := (Request.perArm_apart Hierarchy.object pointRequests (by decide) (by decide)).2.1
  refine ⟨_, _, rfl, by decide, by decide, by decide, by decide, ?_⟩
  exact apart 0 1 _ _ Nat.zero_ne_one rfl rfl

end MatchCompiler
