import CrossRef.Syntax.Candidate

/-! Points outside of quotes. Fences open and close quotes in turn, from left to right, and a quote that nothing closes
reaches to the end. A point outside of quotes is the end of a qualifying path. The search from the left knows at each
place whether it is in a quote; behind the last point outside of them it is in none, as it is where it starts, so that
what is left behind this point has no other one, also when it is read by itself. -/

namespace CrossRef.Syntax

/-- The number of fences in a text, read from left to right. No two of them share a backtick. -/
def fenceCount : List Char → Nat
  | '\x60' :: '\x60' :: cs => fenceCount cs + 1
  | _ :: cs => fenceCount cs
  | [] => 0

/-- What follows a text is outside of quotes if each quote that is opened in the text is closed in it. -/
def OutsideQuotes (before : List Char) : Prop :=
  fenceCount before % 2 = 0

def Unqualified (text : List Char) : Prop :=
  ∀ before after, text = before ++ '.' :: after → ¬OutsideQuotes before

/-- A text that is empty or ends with a point outside of quotes. -/
def IsQualifying (path : List Char) : Prop :=
  path = [] ∨ ∃ names, path = names ++ ['.'] ∧ OutsideQuotes names

theorem not_fence {c : Char} {cs : List Char} (single : ∀ rest, c = '\x60' → cs = '\x60' :: rest → False) :
    ¬(c = '\x60' ∧ cs.head? = some '\x60') := by
  rintro ⟨here, next⟩
  obtain ⟨rest, rfl⟩ := List.head?_eq_some_iff.mp next
  exact single rest here rfl

section single

/-! Where no fence begins with the first character, it is passed over. -/

variable {c : Char} {cs : List Char} (single : ¬(c = '\x60' ∧ cs.head? = some '\x60'))

include single

theorem fenceCount_cons : fenceCount (c :: cs) = fenceCount cs := by
  rw [fenceCount]
  rintro rest rfl rfl
  exact single ⟨rfl, rfl⟩

theorem pastLastDot?_cons (quoted : Bool) : pastLastDot? quoted (c :: cs) =
    ((pastLastDot? quoted cs).map (c.utf8Size + ·)).or (if c = '.' ∧ !quoted then some 1 else none) := by
  rw [pastLastDot?]
  · cases pastLastDot? quoted cs <;> rfl
  · rintro rest rfl rfl
    exact single ⟨rfl, rfl⟩

end single

private theorem head?_append_point {before after : List Char} :
    (before ++ '.' :: after).head? = some '\x60' ↔ before.head? = some '\x60' := by
  cases before <;> simp

private theorem succ_parity (n : Nat) (quoted : Bool) : (n + 1) % 2 = quoted.toNat ↔ n % 2 = (!quoted).toNat := by
  cases quoted <;> simp only [Bool.not_true, Bool.not_false, Bool.toNat_true, Bool.toNat_false] <;> omega

/-- What is found is the end of a point outside of quotes, and behind it there is no other one. A search that starts in a
quote is outside of quotes where the number of fences before is odd. -/
theorem exists_point {quoted : Bool} {cs : List Char} {n : Nat} (found : pastLastDot? quoted cs = some n) :
    ∃ before after, cs = before ++ '.' :: after ∧ Text.size before + 1 = n ∧ fenceCount before % 2 = quoted.toNat ∧
      pastLastDot? false after = none := by
  fun_induction pastLastDot? quoted cs generalizing n with
  | case1 => cases found
  | case2 quoted cs ih =>
    obtain ⟨m, later, rfl⟩ := Option.map_eq_some_iff.mp found
    obtain ⟨before, after, rfl, size, outside, rest⟩ := ih later
    have backtick : Char.utf8Size '\x60' = 1 := rfl
    -- The fence in front is one more, and the search goes on in the other state.
    refine ⟨'\x60' :: '\x60' :: before, after, rfl, ?_, (succ_parity ..).mpr outside, rest⟩
    simp only [Text.size_cons, backtick]
    omega
  | case3 quoted c cs single m later ih =>
    obtain ⟨before, after, rfl, size, outside, rest⟩ := ih later
    obtain rfl := Option.some.inj found
    refine ⟨c :: before, after, rfl, ?_, ?_, rest⟩
    · rw [Text.size_cons]
      omega
    · have apart := not_fence single
      rw [head?_append_point] at apart
      rw [fenceCount_cons apart, outside]
  | case4 quoted c cs _ none here ih =>
    obtain ⟨rfl, free⟩ := here
    obtain rfl : quoted = false := by simpa using free
    exact ⟨[], cs, rfl, Option.some.inj found, rfl, none⟩
  | case5 => cases found

private theorem isSome_pastLastDot? {quoted : Bool} {before : List Char}
    (outside : fenceCount before % 2 = quoted.toNat)
    (after : List Char) : (pastLastDot? quoted (before ++ '.' :: after)).isSome = true := by
  fun_induction fenceCount before generalizing quoted with
  | case1 before ih =>
    rw [List.cons_append, List.cons_append, pastLastDot?, Option.isSome_map]
    exact ih ((succ_parity ..).mp outside)
  | case2 c before single ih =>
    have apart := not_fence single
    rw [← head?_append_point] at apart
    rw [List.cons_append, pastLastDot?_cons apart, Option.isSome_or, Option.isSome_map, ih outside, Bool.true_or]
  | case3 =>
    obtain rfl : quoted = false := Bool.toNat_eq_zero.mp outside.symm
    rw [List.nil_append, pastLastDot?_cons (by simp)]
    simp

theorem pastLastDot?_eq_none_iff {cs : List Char} : pastLastDot? false cs = none ↔ Unqualified cs := by
  constructor
  · rintro none before after rfl outside
    have even : fenceCount before % 2 = false.toNat := outside
    have found := isSome_pastLastDot? even after
    rw [none] at found
    cases found
  · intro unqualified
    cases found : pastLastDot? false cs with
    | none => rfl
    | some n =>
      obtain ⟨before, after, whole, -, outside, -⟩ := exists_point found
      exact absurd outside (unqualified before after whole)

theorem exists_qualifying (cs : List Char) :
    ∃ path kept, cs = path ++ kept ∧ Text.size path = (pastLastDot? false cs).getD 0 ∧ IsQualifying path ∧
      Unqualified kept := by
  cases found : pastLastDot? false cs with
  | none => exact ⟨[], cs, rfl, rfl, .inl rfl, pastLastDot?_eq_none_iff.mp found⟩
  | some n =>
    obtain ⟨before, after, rfl, size, outside, rest⟩ := exists_point found
    have point : Char.utf8Size '.' = 1 := rfl
    refine ⟨before ++ ['.'], after, by simp, ?_, .inr ⟨before, rfl, outside⟩, pastLastDot?_eq_none_iff.mp rest⟩
    simp [point, size]

end CrossRef.Syntax
