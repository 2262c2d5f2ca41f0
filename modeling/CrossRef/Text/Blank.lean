/-! The characters that count as blank when a text is trimmed, and the trimming itself. -/

namespace CrossRef.Text

/-- The code points with the property White_Space, as closed intervals. -/
def blankRanges : List (Nat × Nat) :=
  [(0x09, 0x0D), (0x20, 0x20), (0x85, 0x85), (0xA0, 0xA0), (0x1680, 0x1680), (0x2000, 0x200A),
    (0x2028, 0x2029), (0x202F, 0x202F), (0x205F, 0x205F), (0x3000, 0x3000)]

def isBlank (c : Char) : Bool :=
  blankRanges.any fun (first, last) => first ≤ c.toNat && c.toNat ≤ last

theorem isBlank_of_isWhitespace {c : Char} (white : c.isWhitespace = true) : isBlank c = true := by
  simp only [Char.isWhitespace, Bool.or_eq_true, decide_eq_true_eq] at white
  rcases white with ((rfl | rfl) | rfl) | rfl <;> decide

/-- Drops the characters of a class from both ends. -/
def stripBoth (p : Char → Bool) (cs : List Char) : List Char :=
  ((cs.dropWhile p).reverse.dropWhile p).reverse

/-- What does not start with a character of a class stops the dropping. -/
theorem dropWhile_append_of_solid {p : Char → Bool} (front : List Char) {core : List Char} (filled : core ≠ [])
    (solid : core.head?.any p = false) : (front ++ core).dropWhile p = front.dropWhile p ++ core := by
  induction front with
  | nil =>
    cases core with
    | nil => contradiction
    | cons c cs => exact List.dropWhile_cons_of_neg (by simpa using solid)
  | cons c front ih =>
    rw [List.cons_append, List.dropWhile_cons, List.dropWhile_cons]
    split
    · exact ih
    · rfl

/-- From around a text with other characters at its ends, only characters of the class go. -/
theorem stripBoth_append {p : Char → Bool} (front : List Char) {core : List Char} (back : List Char)
    (filled : core ≠ []) (first : core.head?.any p = false) (last : core.getLast?.any p = false) :
    stripBoth p (front ++ (core ++ back)) =
      front.dropWhile p ++ (core ++ (back.reverse.dropWhile p).reverse) := by
  have start : ∀ inside behind : List Char, inside ≠ [] → (inside ++ behind).head? = inside.head? := by
    intro inside behind filled
    cases inside with
    | nil => contradiction
    | cons c cs => rfl
  have turned : (front.dropWhile p ++ (core ++ back)).reverse =
      back.reverse ++ (core.reverse ++ (front.dropWhile p).reverse) := by
    simp
  rw [stripBoth, dropWhile_append_of_solid front (by simp [filled]) (by rw [start core back filled, first]), turned,
    dropWhile_append_of_solid _ (by simp [filled])
      (by rw [start _ _ (by simpa using filled), List.head?_reverse, last])]
  simp

theorem any_head?_of_free {p : Char → Bool} {cs : List Char} (free : ∀ c ∈ cs, p c = false) :
    cs.head?.any p = false := by
  cases cs with
  | nil => rfl
  | cons c cs => exact free c List.mem_cons_self

theorem any_getLast?_append {p : Char → Bool} (front : List Char) {back : List Char} (filled : back ≠ [])
    (free : ∀ c ∈ back, p c = false) : (front ++ back).getLast?.any p = false := by
  rw [List.getLast?_append, List.getLast?_eq_some_getLast filled]
  exact free _ (List.getLast_mem filled)

/-- What is left after stripping does not start with a character of the class. -/
theorem head?_stripBoth (p : Char → Bool) (cs : List Char) : (stripBoth p cs).head?.any p = false := by
  have starts : stripBoth p cs <+: cs.dropWhile p := by
    rw [← List.reverse_reverse (cs.dropWhile p), stripBoth, List.reverse_prefix]
    exact List.dropWhile_suffix p
  have stop := List.head?_dropWhile_not p cs
  obtain ⟨rest, whole⟩ := starts
  cases kept : stripBoth p cs with
  | nil => rfl
  | cons c front =>
    rw [← whole, kept] at stop
    simpa using stop

/-- Drops blanks from both ends. -/
def trim (cs : List Char) : List Char :=
  stripBoth isBlank cs

end CrossRef.Text
