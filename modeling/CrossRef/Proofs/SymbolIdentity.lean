import CrossRef.Check.Analysis
import Mathlib.Data.List.Basic
import Std.Data.String.ToNat

/-! Reading an identity back. Its text begins with the path and ends with the number of the binding, so two
identities that are equal have both of them in common, as long as no path has the colon that ends it. What
stands between them is ambiguous only if names have the signs that divide it. -/

namespace CrossRef.Check

theorem not_mem_toString {c : Char} (sign : c.isDigit = false) (n : Nat) : c ∉ (toString n).toList := by
  intro inside
  rw [Nat.toString_eq_repr, Nat.toList_repr] at inside
  have digit := Nat.isDigit_of_mem_toDigits (by decide) (by decide) inside
  rw [sign] at digit
  cases digit

theorem append_eq_append_of_first {α : Type} {x : α} {left right tail rest : List α} (first : x ∉ left)
    (second : x ∉ right) (same : left ++ x :: tail = right ++ x :: rest) : left = right ∧ tail = rest := by
  induction left generalizing right with
  | nil =>
    cases right with
    | nil => exact ⟨rfl, (List.cons.inj same).2⟩
    | cons y right =>
      obtain ⟨rfl, -⟩ := List.cons.inj same
      exact absurd (List.mem_cons_self ..) second
  | cons y left ih =>
    cases right with
    | nil =>
      obtain ⟨rfl, -⟩ := List.cons.inj same
      exact absurd (List.mem_cons_self ..) first
    | cons z right =>
      obtain ⟨rfl, behind⟩ := List.cons.inj same
      obtain ⟨rfl, rfl⟩ := ih (List.not_mem_of_not_mem_cons first) (List.not_mem_of_not_mem_cons second) behind
      exact ⟨rfl, rfl⟩

private theorem append_eq_append_of_last {x : Char} {left right tail rest : List Char} (first : x ∉ tail)
    (second : x ∉ rest) (same : left ++ x :: tail = right ++ x :: rest) : left = right ∧ tail = rest := by
  have flipped := congrArg List.reverse same
  simp only [List.reverse_append, List.reverse_cons, List.append_assoc, List.singleton_append] at flipped
  obtain ⟨tails, fronts⟩ := append_eq_append_of_first (by simpa using first) (by simpa using second) flipped
  exact ⟨List.reverse_injective fronts, List.reverse_injective tails⟩

private theorem toList_identity (path : Path) (owner name : String) (ordinal : Nat) :
    (identity path owner name ordinal).text.toList =
      path.text.toList ++ ':' :: (owner.toList ++ '/' :: (name.toList ++ '#' :: (toString ordinal).toList)) := by
  simp [identity]

variable {path other : Path} {owner keeper name called : String} {ordinal number : Nat}

theorem path_of_identity (plain : ':' ∉ path.text.toList) (plainOther : ':' ∉ other.text.toList)
    (same : identity path owner name ordinal = identity other keeper called number) : path = other := by
  have lists := congrArg (fun id => id.text.toList) same
  simp only [toList_identity] at lists
  exact Path.ext_text (String.toList_inj.mp (append_eq_append_of_first plain plainOther lists).1)

theorem owner_of_identity (same : identity path owner name ordinal = identity path keeper name number) :
    owner = keeper ∧ ordinal = number := by
  have lists := congrArg (fun id => id.text.toList) same
  simp only [toList_identity] at lists
  have tails := List.cons_inj_right _ |>.mp (List.append_cancel_left lists)
  rw [← List.cons_append, ← List.cons_append, ← List.append_assoc, ← List.append_assoc] at tails
  obtain ⟨fronts, numbers⟩ :=
    append_eq_append_of_last (not_mem_toString (by decide) ordinal) (not_mem_toString (by decide) number) tails
  have owners := List.append_cancel_right fronts
  exact ⟨String.toList_inj.mp owners, Nat.repr_injective (String.toList_inj.mp numbers)⟩

/-- Where no name has the dividing signs, the name can be read off too. -/
theorem name_of_identity (plain : '/' ∉ owner.toList) (plainKeeper : '/' ∉ keeper.toList)
    (free : '#' ∉ name.toList) (freeCalled : '#' ∉ called.toList)
    (same : identity path owner name ordinal = identity path keeper called number) : name = called := by
  have lists := congrArg (fun id => id.text.toList) same
  simp only [toList_identity] at lists
  have tails := List.cons_inj_right _ |>.mp (List.append_cancel_left lists)
  have names := (append_eq_append_of_first plain plainKeeper tails).2
  exact String.toList_inj.mp (append_eq_append_of_first free freeCalled names).1

end CrossRef.Check
