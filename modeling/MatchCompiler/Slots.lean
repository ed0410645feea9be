import MatchCompiler.AccessTable

/-!
# Slots

One cell per temp, empty until the access that yields the temp has been made.
Temps without a cell cannot be filled. The lemmas say what `get?` yields after
each change.
-/

set_option autoImplicit false

namespace MatchCompiler

structure Slots (α : Type) where
  cells : Array (Option α)
deriving DecidableEq, Repr

namespace Slots

variable {α : Type}

def blank (count : Nat) : Slots α :=
  ⟨Array.replicate count none⟩

def get? (slots : Slots α) (temp : Temp) : Option α :=
  slots.cells[temp.index]?.join

def set (slots : Slots α) (temp : Temp) (content : α) : Slots α :=
  ⟨slots.cells.setIfInBounds temp.index (some content)⟩

def update (slots : Slots α) (temp : Temp) (change : α → α) : Slots α :=
  ⟨slots.cells.modify temp.index (Option.map change)⟩

/-! ## What is in a slot afterwards -/

@[simp] theorem get?_blank (count : Nat) (temp : Temp) :
    (blank count : Slots α).get? temp = none := by
  by_cases inside : temp.index < count <;> simp [get?, blank, inside]

theorem get?_set (slots : Slots α) (temp other : Temp) (content : α) :
    (slots.set temp content).get? other =
      if other = temp ∧ temp.index < slots.cells.size then some content else slots.get? other := by
  by_cases same : other = temp
  · subst same
    by_cases inside : other.index < slots.cells.size <;> simp [get?, set, inside]
  · have apart : temp.index ≠ other.index := fun equal => same (by cases temp; cases other; simp_all)
    simp [get?, set, same, Array.getElem?_setIfInBounds_ne apart]

theorem get?_update (slots : Slots α) (temp other : Temp) (change : α → α) :
    (slots.update temp change).get? other =
      if other = temp then (slots.get? other).map change else slots.get? other := by
  by_cases same : other = temp
  · subst same
    cases found : slots.cells[other.index]? with
    | none => simp [get?, update, Array.getElem?_modify, found]
    | some cell => cases cell <;> simp [get?, update, Array.getElem?_modify, found]
  · have apart : temp.index ≠ other.index := fun equal => same (by cases temp; cases other; simp_all)
    simp [get?, update, Array.getElem?_modify, same, apart]

@[simp] theorem size_cells_set (slots : Slots α) (temp : Temp) (content : α) :
    (slots.set temp content).cells.size = slots.cells.size := by
  simp [set]

@[simp] theorem size_cells_update (slots : Slots α) (temp : Temp) (change : α → α) :
    (slots.update temp change).cells.size = slots.cells.size := by
  simp [update]

end Slots

end MatchCompiler
