import Std.Data.HashMap

/-! Counting keys. -/

namespace CrossRef

/-- How often each key has been met. -/
structure Tally (κ : Type) [DecidableEq κ] [Hashable κ] where
  byKey : Std.HashMap κ Nat

namespace Tally

variable {κ : Type} [DecidableEq κ] [Hashable κ]

def empty : Tally κ := ⟨∅⟩

def count (t : Tally κ) (k : κ) : Nat :=
  t.byKey.getD k 0

/-- Counts a key once more. -/
def add (t : Tally κ) (k : κ) : Tally κ :=
  ⟨t.byKey.insert k (t.count k + 1)⟩

@[simp] theorem count_empty (k : κ) : (empty : Tally κ).count k = 0 := by
  simp [count, empty]

theorem count_add (t : Tally κ) (k other : κ) :
    (t.add k).count other = if other = k then t.count other + 1 else t.count other := by
  by_cases same : k = other
  · subst same
    simp [count, add]
  · simp [count, add, Std.HashMap.getD_insert, same, Ne.symm same]

end Tally

end CrossRef
