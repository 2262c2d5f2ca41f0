import Std.Data.HashMap

/-! Values by key. The buckets of a list give for each key what a filter of the list would give, without
going through the list again. -/

namespace CrossRef

structure Buckets (κ α : Type) [DecidableEq κ] [Hashable κ] where
  byKey : Std.HashMap κ (List α)

namespace Buckets

variable {κ α : Type} [DecidableEq κ] [Hashable κ]

def empty : Buckets κ α := ⟨∅⟩

/-- The values of a key. -/
def get (b : Buckets κ α) (k : κ) : List α :=
  b.byKey.getD k []

/-- Puts a value in front of those of its key. -/
def push (b : Buckets κ α) (k : κ) (value : α) : Buckets κ α :=
  ⟨b.byKey.insert k (value :: b.get k)⟩

/-- The buckets of some elements, each of them under its key. -/
def ofList (key : α → κ) (values : List α) : Buckets κ α :=
  values.foldr (fun value b => b.push (key value) value) empty

theorem get_empty (k : κ) : (empty : Buckets κ α).get k = [] := by
  simp [get, empty]

theorem get_push (b : Buckets κ α) (k : κ) (value : α) (other : κ) :
    (b.push k value).get other = if other = k then value :: b.get other else b.get other := by
  by_cases same : k = other
  · subst same
    simp [get, push]
  · simp [get, push, Std.HashMap.getD_insert, same, Ne.symm same]

/-- A bucket holds the elements of its key, in their order. -/
theorem get_ofList (key : α → κ) (values : List α) (k : κ) :
    (ofList key values).get k = values.filter (key · = k) := by
  induction values with
  | nil => exact get_empty k
  | cons value rest ih =>
    have step : ofList key (value :: rest) = (ofList key rest).push (key value) value := rfl
    rw [step, get_push, ih]
    by_cases same : k = key value
    · simp [same]
    · simp [same, Ne.symm same]

end Buckets

end CrossRef
