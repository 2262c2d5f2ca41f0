/-! Fractions with a fixed number of decimals. A fraction is first brought to the precision of a binary
floating-point number with 53 significant bits, and that number is then rounded to decimals. -/

namespace CrossRef

/-- The nearest whole number to a quotient; a half goes to the even neighbour. -/
def roundDiv (n d : Nat) : Nat :=
  if d < 2 * (n % d) ∨ (d = 2 * (n % d) ∧ n / d % 2 = 1) then n / d + 1 else n / d

/-- A rounded quotient is within half a unit of the exact one. -/
theorem roundDiv_near (n d : Nat) (positive : 0 < d) :
    2 * n ≤ 2 * (roundDiv n d * d) + d ∧ 2 * (roundDiv n d * d) ≤ 2 * n + d := by
  have split := Nat.div_add_mod n d
  have small := Nat.mod_lt n positive
  have swap : n / d * d = d * (n / d) := Nat.mul_comm ..
  unfold roundDiv
  split
  · rw [Nat.add_mul, swap]
    omega
  · rw [swap]
    omega

/-- The number `mantissa / 2 ^ places`. -/
structure BinaryFraction where
  mantissa : Nat
  places : Nat
deriving DecidableEq, Repr

namespace BinaryFraction

/-- The number of significant bits. -/
def precision : Nat := 53

/-- The nearest number with 53 significant bits to the quotient of two numbers, the first of which is not
larger than the second. -/
def nearest (n d : Nat) : BinaryFraction :=
  let least := precision - 1 + (Nat.log2 d - Nat.log2 n)
  let places := if n * Nat.pow 2 least / d < Nat.pow 2 (precision - 1) then least + 1 else least
  ⟨roundDiv (n * Nat.pow 2 places) d, places⟩

/-- The number in millionths; a half goes to the even neighbour. -/
def millionths (f : BinaryFraction) : Nat :=
  roundDiv (f.mantissa * 1000000) (Nat.pow 2 f.places)

/-- The number with six decimals. -/
def text (f : BinaryFraction) : String :=
  let digits := toString (f.millionths % 1000000)
  toString (f.millionths / 1000000) ++ "." ++
    String.ofList (List.replicate (6 - digits.length) '0') ++ digits

end BinaryFraction

end CrossRef
