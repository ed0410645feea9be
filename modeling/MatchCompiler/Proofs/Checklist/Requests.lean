import MatchCompiler.Checklist.Requests
import MatchCompiler.Proofs.Compile
import MatchCompiler.Proofs.Pattern.Repetition

/-!
# Asking again

A request only adds to the table, also where it fails. So the numbers of temps and
accesses are good for all later requests, and a request that was answered once
gets the same answer ever after, at no cost for the table.
-/

set_option autoImplicit false

namespace MatchCompiler

/-! ## One request -/

namespace Request

variable {request : Request} {table after : AccessTable} {checklist : Checklist}
  {error : BuildError} {declared : TempEntry}

theorem serve_eq_ok : request.serve table = (.ok checklist, after) ↔
    request.arm.checklist request.types request.sharing request.index table =
      .ok (checklist, after) :=
  Laying.onto_eq_ok.symm

theorem serve_extends (request : Request) (found : table.temp? .root = some declared) :
    table.Extends (request.serve table).2 fun _ => True :=
  (Arm.layOut_yields _ _ _ _ found).extended.imp fun _ _ _ => trivial

/-- A request whose parts can be counted can fail for two reasons, neither of which
lies in what the table has grown to. -/
theorem fails_iff (found : table.temp? .root = some declared)
    (countable : request.arm.pattern.Countable) :
    (∃ error, (request.serve table).1 = .error error) ↔
      request.arm.pattern.input ≠ table.typeOf .root ∨
        (request.sharing = .perArm ∧ 0xffffffff < request.index) := by
  have succeeds : (∃ checklist, (request.serve table).1 = .ok checklist) ↔ _ :=
    (Arm.layOut_yields _ _ _ _ found).succeeds
  have failed : (∃ error, (request.serve table).1 = .error error) ↔
      ¬ ∃ checklist, (request.serve table).1 = .ok checklist := by
    cases (request.serve table).1 <;> simp
  have ownerless : (¬ ∃ owner, request.sharing.owner request.index = .ok owner) ↔
      request.sharing = .perArm ∧ 0xffffffff < request.index := by
    cases owned : request.sharing.owner request.index with
    | ok owner =>
        have fits := mt (fun overflows => Sharing.owner_eq_error.mpr ⟨overflows, rfl⟩)
          (by simp [owned] : request.sharing.owner request.index ≠ .error .armOverflow)
        exact iff_of_false (by simp) fits
    | error error => exact iff_of_true (by simp) (Sharing.owner_eq_error.mp owned).1
  rw [failed, succeeds, AccessTable.typeOf_of_temp? found, ← ownerless]
  simp only [countable, and_true]
  exact not_and_or

/-- The parts are all that is laid out before a request can fail. -/
theorem serve_error_unchanged {error : BuildError} (found : table.temp? .root = some declared)
    (countable : request.arm.pattern.Countable)
    (failed : request.serve table = (.error error, after)) : after = table := by
  unfold serve at failed
  rw [Arm.layOut_on] at failed
  split at failed
  · cases owned : request.sharing.owner request.index with
    | error other =>
        rw [owned] at failed
        exact (congrArg Prod.snd failed).symm
    | ok owner =>
        obtain ⟨fragment, isFragment⟩ :=
          (Pattern.flatten_succeeds_iff request.types owner found).mpr countable
        rcases laid : (request.arm.pattern.flatten request.types owner .root).on table with
          ⟨answer, last⟩
        rw [laid] at isFragment
        obtain rfl := isFragment
        simp [owned, laid] at failed
  · exact (congrArg Prod.snd failed).symm

end Request

/-! ## Many requests -/

namespace AccessTable

/-- What one table knows, another one knows under the same number, and gives that
number to whoever asks for it. -/
structure Keeps (before after : AccessTable) : Prop where
  temp? : ∀ {temp : Temp} {declared : TempEntry},
    before.temp? temp = some declared → after.temp? temp = some declared
  access? : ∀ {made : Access} {entry : AccessEntry},
    before.access? made = some entry → after.access? made = some entry
  output : ∀ {temp : Temp} {source : Access} {position : Nat} {type : Ty},
    before.temp? temp = some ⟨type, some source, position⟩ →
      after.output source position type = (temp, after)
  access : ∀ {made : Access} {input : Temp} {kind : AccessKind},
    before.access? made = some ⟨input, kind⟩ → after.access input kind = (made, after)

theorem Grows.keeps {before after : AccessTable} (grows : before.Grows after)
    (distinct : after.Distinct) : before.Keeps after where
  temp? := grows.temp?
  access? := grows.access?
  output := fun found => distinct.output_eq (grows.temp? found)
  access := fun known => distinct.access_eq (grows.access? known)

theorem afterRequests_extends (requests : List Request) :
    ∀ {table : AccessTable} {declared : TempEntry}, table.temp? .root = some declared →
      table.Extends (table.afterRequests requests) fun _ => True := by
  induction requests with
  | nil =>
      intro table declared _
      exact .refl fun _ _ => trivial
  | cons request requests ih =>
      intro table declared found
      have first := request.serve_extends found
      exact (first.trans (ih (first.grows.temp? found))).imp fun _ _ _ => trivial

/-- A table that was made for an input and then by requests. -/
structure Served (input : Ty) (table : AccessTable) : Prop where
  root : table.temp? .root = some ⟨input, none, 0⟩
  lawful : table.Lawful
  distinct : table.Distinct

theorem served_afterRequests (input : Ty) (requests : List Request) :
    ((ofInput input).afterRequests requests).Served input := by
  have extended := afterRequests_extends requests (rfl : (ofInput input).temp? .root = _)
  exact ⟨extended.grows.temp? rfl, extended.lawful (lawful_ofInput input),
    extended.distinct (distinct_ofInput input)⟩

end AccessTable

/-- The table of a compilation is one that requests lead to. -/
theorem afterRequests_of_checklists {types : TypeOracle} {sharing : Sharing} (arms : List Arm) :
    ∀ {index : Nat} {table after : AccessTable} {lists : List Checklist},
      checklists types sharing index arms table = .ok (lists, after) →
      table.afterRequests ((arms.zipIdx index).map fun entry =>
        ⟨types, sharing, entry.2, entry.1⟩) = after := by
  induction arms with
  | nil =>
      intro index table after lists laid
      simp only [checklists, Except.ok.injEq, Prod.mk.injEq] at laid
      exact laid.2
  | cons arm arms ih =>
      intro index table after lists laid
      simp only [checklists, bind_eq_ok, pure_eq_ok, Prod.mk.injEq] at laid
      obtain ⟨⟨checklist, middle⟩, first, ⟨rest, last⟩, later, rfl, rfl⟩ := laid
      have served : Request.serve ⟨types, sharing, index, arm⟩ table = (.ok checklist, middle) :=
        Request.serve_eq_ok.mpr first
      rw [List.zipIdx_cons, List.map_cons, AccessTable.afterRequests, List.foldl_cons, served]
      exact ih later

theorem Sharing.owner_congr {sharing : Sharing} {index again : Nat}
    (same : sharing = .perArm → again = index) : sharing.owner again = sharing.owner index := by
  cases sharing with
  | shared => rfl
  | perArm => rw [same rfl]

/-- An arm that was laid out is laid out in the same way in a table that has
grown since, under another number as well where calls are shared. -/
theorem Arm.checklist_again {types : TypeOracle} {sharing : Sharing} {index again : Nat} {arm : Arm}
    {table after final : AccessTable} {checklist : Checklist} {declared : TempEntry}
    (found : table.temp? .root = some declared)
    (laid : arm.checklist types sharing index table = .ok (checklist, after))
    (grows : after.Grows final) (distinct : final.Distinct)
    (same : sharing = .perArm → again = index) :
    arm.checklist types sharing again final = .ok ({ checklist with index := again }, final) := by
  obtain ⟨sameInput, owner, fragment, owned, flattened, rfl⟩ := Arm.checklist_eq_ok.mp laid
  have extended := Pattern.flatten_extends found flattened
  have countable : arm.pattern.Countable :=
    (Pattern.flatten_succeeds_iff types owner found).mp ⟨fragment, congrArg Prod.fst flattened⟩
  have stillInput : arm.pattern.input = final.typeOf .root := by
    rw [(extended.grows.trans grows).typeOf found, sameInput]
  -- all that the pattern needs is in the table by now, so nothing is entered
  have repeated : (arm.pattern.flatten types owner .root).on final = (.ok fragment, final) :=
    Pattern.flatten_of_lays types owner distinct arm.pattern countable
      (extended.laidOut final grows)
  exact Arm.checklist_eq_ok.mpr
    ⟨stillInput, owner, fragment, (Sharing.owner_congr same).trans owned, repeated, rfl⟩

/-- Whatever was asked for before, a request for a pattern that is not too large
fails for the input or for an arm that cannot own its calls, and then changes
nothing. If it succeeds, it is answered in the same way after any other requests,
and does not change the table again; no number in the table ever gets another
meaning. -/
theorem Request.serve_stable (input : Ty) (earlier : List Request) (request : Request)
    (small : request.arm.pattern.size < 2 ^ 32) :
    let table := (AccessTable.ofInput input).afterRequests earlier
    table.typeOf .root = input ∧
      ((∃ error, (request.serve table).1 = .error error) ↔
        request.arm.pattern.input ≠ table.typeOf .root ∨
          (request.sharing = .perArm ∧ 0xffffffff < request.index)) ∧
      (∀ error after, request.serve table = (.error error, after) → after = table) ∧
      (∀ checklist after, request.serve table = (.ok checklist, after) →
        ∀ later again, (request.sharing = .perArm → again = request.index) →
          { request with index := again }.serve (after.afterRequests later) =
            (.ok { checklist with index := again }, after.afterRequests later)) ∧
      ∀ later, table.Keeps (table.afterRequests later) := by
  intro table
  have served : table.Served input := AccessTable.served_afterRequests input earlier
  have countable := request.arm.pattern.countable_of_size_lt (by omega)
  refine ⟨AccessTable.typeOf_of_temp? served.root, fails_iff served.root countable, ?_, ?_, ?_⟩
  · intro error after failed
    exact serve_error_unchanged served.root countable failed
  · intro checklist after answered later again same
    have laid := serve_eq_ok.mp answered
    have first := Arm.checklist_extends served.root laid
    have further := AccessTable.afterRequests_extends later (first.grows.temp? served.root)
    exact serve_eq_ok.mpr (Arm.checklist_again served.root laid further.grows
      (further.distinct (first.distinct served.distinct)) same)
  · intro later
    have further := AccessTable.afterRequests_extends later served.root
    exact further.grows.keeps (further.distinct served.distinct)

def shapeRequest (arm : Arm) : Request :=
  ⟨shapes.oracle, .shared, 0, arm⟩

/-- Points with a member that is bound. -/
def pointArm : Arm :=
  ⟨.compound Hierarchy.object (some ⟨2⟩) none [(.property ⟨3⟩, .var ⟨3⟩ ⟨1⟩)] none, none, ⟨0⟩⟩

/-- An arm about a number fails before, the arms of a switch are laid out between. -/
theorem serve_stable_shapes :
    let table := (AccessTable.ofInput Hierarchy.object).afterRequests
      [shapeRequest ⟨.discard ⟨3⟩, none, ⟨2⟩⟩]
    ∃ checklist after, (shapeRequest pointArm).serve table = (.ok checklist, after) ∧
      { shapeRequest pointArm with index := 9 }.serve
          (after.afterRequests (shapeSwitch.arms.map shapeRequest)) =
        (.ok { checklist with index := 9 },
          after.afterRequests (shapeSwitch.arms.map shapeRequest)) := by
  intro table
  have succeeds : ((shapeRequest pointArm).serve table).1.toOption.isSome = true := by decide
  rcases served : (shapeRequest pointArm).serve table with ⟨answer, after⟩
  rw [served] at succeeds
  cases answer with
  | error error => contradiction
  | ok checklist =>
      have stable := Request.serve_stable Hierarchy.object
        [shapeRequest ⟨.discard ⟨3⟩, none, ⟨2⟩⟩] (shapeRequest pointArm) (by decide)
      exact ⟨checklist, after, rfl, stable.2.2.2.1 checklist after served _ 9 nofun⟩

end MatchCompiler
