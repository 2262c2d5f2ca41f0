/-! Decimal numbers as people type them. -/

namespace CrossRef.Text

def isDigit (c : Char) : Bool :=
  '0' ≤ c && c ≤ '9'

/-- The value of a run of digits, the most significant one first. -/
def digitsValue (cs : List Char) : Nat :=
  cs.foldl (fun value c => 10 * value + (c.toNat - '0'.toNat)) 0

/-- Reads a natural number below a bound: one or more digits, perhaps with a plus sign before them. -/
def natural? (bound : Nat) (cs : List Char) : Option Nat :=
  let digits := if cs.head? = some '+' then cs.tail else cs
  if digits ≠ [] ∧ digits.all isDigit ∧ digitsValue digits < bound then some (digitsValue digits)
  else none

theorem isDigit_of_mem_toDigits {n : Nat} {c : Char} (inside : c ∈ Nat.toDigits 10 n) : isDigit c = true :=
  Nat.isDigit_of_mem_toDigits (by decide) (by decide) inside

/-- A number below the bound is read back from its digits. -/
theorem natural?_toDigits {bound n : Nat} (small : n < bound) : natural? bound (Nat.toDigits 10 n) = some n := by
  have plain : (Nat.toDigits 10 n).head? ≠ some '+' := by
    intro plus
    cases isDigit_of_mem_toDigits (List.mem_of_mem_head? plus)
  have value : digitsValue (Nat.toDigits 10 n) = n := by
    rw [digitsValue, ← Nat.ofDigitChars_eq_foldl, Nat.ofDigitChars_ten_toDigits]
  rw [natural?, if_neg plain, value]
  exact if_pos ⟨Nat.toDigits_ne_nil, List.all_eq_true.mpr fun c inside => isDigit_of_mem_toDigits inside, small⟩

theorem lt_of_natural? {bound n : Nat} {cs : List Char} (read : natural? bound cs = some n) : n < bound := by
  unfold natural? at read
  simp only [Option.ite_none_right_eq_some, Option.some.injEq] at read
  obtain ⟨⟨-, -, small⟩, rfl⟩ := read
  exact small

end CrossRef.Text
