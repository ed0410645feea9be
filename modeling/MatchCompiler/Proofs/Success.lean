import Mathlib.Data.List.Forall2

/-!
# Computations that succeed

A chain of computations that can fail succeeds only if each of them does.
-/

set_option autoImplicit false

namespace MatchCompiler

theorem bind_eq_ok {ε α β : Type} {first : Except ε α} {next : α → Except ε β} {result : β} :
    (first >>= next) = .ok result ↔ ∃ middle, first = .ok middle ∧ next middle = .ok result := by
  cases first with
  | error error => simp [bind, Except.bind]
  | ok middle => simp [bind, Except.bind]

theorem bind_eq_error {ε α β : Type} {first : Except ε α} {next : α → Except ε β} {error : ε} :
    (first >>= next) = .error error ↔
      first = .error error ∨ ∃ middle, first = .ok middle ∧ next middle = .error error := by
  cases first with
  | error other => simp [bind, Except.bind]
  | ok middle => simp [bind, Except.bind]

theorem pure_eq_ok {ε α : Type} {value result : α} :
    (pure value : Except ε α) = .ok result ↔ value = result := by
  simp [pure, Except.pure]

theorem ok_bind {ε α β : Type} (value : α) (next : α → Except ε β) :
    ((.ok value : Except ε α) >>= next) = next value := rfl

theorem mapM_eq_ok {ε α β : Type} {step : α → Except ε β} {inputs : List α} {outputs : List β} :
    inputs.mapM step = .ok outputs ↔
      List.Forall₂ (fun input output => step input = .ok output) inputs outputs := by
  induction inputs generalizing outputs with
  | nil => rw [List.mapM_nil, pure_eq_ok, List.forall₂_nil_left_iff, eq_comm]
  | cons input rest ih =>
      rw [List.mapM_cons, bind_eq_ok]
      simp only [bind_eq_ok, pure_eq_ok, ih, List.forall₂_cons_left_iff]
      constructor
      · rintro ⟨output, stepped, others, restStepped, rfl⟩
        exact ⟨output, others, stepped, restStepped, rfl⟩
      · rintro ⟨output, others, stepped, restStepped, rfl⟩
        exact ⟨output, stepped, others, restStepped, rfl⟩

theorem exists_of_mapM_eq_error {ε α β : Type} {step : α → Except ε β} {inputs : List α}
    {error : ε} (failed : inputs.mapM step = .error error) :
    ∃ input ∈ inputs, step input = .error error := by
  induction inputs with
  | nil => contradiction
  | cons input rest ih =>
      rw [List.mapM_cons] at failed
      rcases bind_eq_error.mp failed with here | ⟨output, _, onward⟩
      · exact ⟨input, List.mem_cons_self, here⟩
      · rcases bind_eq_error.mp onward with behind | ⟨_, _, impossible⟩
        · obtain ⟨other, member, stepFailed⟩ := ih behind
          exact ⟨other, List.mem_cons_of_mem _ member, stepFailed⟩
        · contradiction

theorem getElem?_of_forall₂ {α β : Type} {related : α → β → Prop} {inputs : List α}
    {outputs : List β} (pairs : List.Forall₂ related inputs outputs) :
    ∀ {position : Nat} {input : α}, inputs[position]? = some input →
      ∃ output, outputs[position]? = some output ∧ related input output := by
  induction pairs with
  | nil => intro position input found; simp at found
  | cons holds _ ih =>
      intro position input found
      cases position with
      | zero =>
          simp only [List.getElem?_cons_zero, Option.some.injEq] at found
          subst found
          exact ⟨_, by simp, holds⟩
      | succ position => simpa using ih (by simpa using found)

theorem exists_of_mem_forall₂ {α β : Type} {related : α → β → Prop} {inputs : List α}
    {outputs : List β} (pairs : List.Forall₂ related inputs outputs) {output : β}
    (member : output ∈ outputs) : ∃ input ∈ inputs, related input output := by
  induction pairs with
  | nil => exact absurd member List.not_mem_nil
  | cons holds _ ih =>
      rcases List.mem_cons.mp member with rfl | inRest
      · exact ⟨_, List.mem_cons_self, holds⟩
      · obtain ⟨input, inputMember, relates⟩ := ih inRest
        exact ⟨input, List.mem_cons_of_mem _ inputMember, relates⟩

theorem exists_mem_of_forall₂ {α β : Type} {related : α → β → Prop} {inputs : List α}
    {outputs : List β} (pairs : List.Forall₂ related inputs outputs) {input : α}
    (member : input ∈ inputs) : ∃ output ∈ outputs, related input output := by
  obtain ⟨output, outputMember, relates⟩ := exists_of_mem_forall₂ pairs.flip member
  exact ⟨output, outputMember, relates⟩

theorem map_eq_of_forall₂ {α β γ : Type} {related : α → β → Prop} {inputs : List α}
    {outputs : List β} (pairs : List.Forall₂ related inputs outputs) {front : α → γ} {back : β → γ}
    (agrees : ∀ input output, related input output → back output = front input) :
    outputs.map back = inputs.map front := by
  induction pairs with
  | nil => rfl
  | cons holds _ ih => rw [List.map_cons, List.map_cons, agrees _ _ holds, ih]

end MatchCompiler
