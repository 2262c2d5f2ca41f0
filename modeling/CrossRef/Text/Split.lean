/-! Cutting a text at separators, and looking for one text inside another. -/

namespace CrossRef.Text

/-- The pieces between the occurrences of a character; a text without one is a single piece. -/
def split (d : Char) (cs : List Char) : List (List Char) :=
  cs.foldr (fun c pieces =>
    if c = d then
      [] :: pieces
    else
      match pieces with
      | [] => [[c]]
      | first :: rest => (c :: first) :: rest) [[]]

@[simp] theorem split_nil (d : Char) : split d [] = [[]] := rfl

@[simp] theorem split_cons_self (d : Char) (cs : List Char) : split d (d :: cs) = [] :: split d cs := by
  simp [split]

theorem split_ne_nil (d : Char) (cs : List Char) : split d cs ≠ [] := by
  cases cs with
  | nil => simp
  | cons c cs =>
    simp only [split, List.foldr_cons]
    split
    · simp
    · split <;> simp

theorem split_append_cons {d : Char} {piece : List Char} (free : d ∉ piece) (cs : List Char) :
    split d (piece ++ d :: cs) = piece :: split d cs := by
  induction piece with
  | nil => simp
  | cons c piece ih =>
    simp only [List.mem_cons, not_or] at free
    have inner := ih free.2
    simp only [split, List.cons_append, List.foldr_cons] at inner ⊢
    rw [if_neg (Ne.symm free.1), inner]

theorem split_of_not_mem {d : Char} {piece : List Char} (free : d ∉ piece) : split d piece = [piece] := by
  induction piece with
  | nil => rfl
  | cons c piece ih =>
    simp only [List.mem_cons, not_or] at free
    have inner := ih free.2
    simp only [split, List.foldr_cons] at inner ⊢
    rw [if_neg (Ne.symm free.1), inner]

/-- Pieces without the separator are found again in what they are joined to. -/
theorem split_intercalate {d : Char} {pieces : List (List Char)} (nonempty : pieces ≠ [])
    (free : ∀ piece ∈ pieces, d ∉ piece) : split d (List.intercalate [d] pieces) = pieces := by
  induction pieces with
  | nil => contradiction
  | cons first rest ih =>
    cases rest with
    | nil => simpa using split_of_not_mem (free first (by simp))
    | cons second rest =>
      rw [List.intercalate_cons_cons, List.append_assoc, List.singleton_append,
        split_append_cons (free first (by simp)), ih (by simp) fun piece inside => free piece (by simp [inside])]

theorem not_mem_intercalate {c : Char} {between : List Char} {pieces : List (List Char)} (outside : c ∉ between)
    (free : ∀ piece ∈ pieces, c ∉ piece) : c ∉ List.intercalate between pieces := by
  induction pieces with
  | nil => simp
  | cons first rest ih =>
    cases rest with
    | nil => simpa using free first (by simp)
    | cons second rest =>
      rw [List.intercalate_cons_cons, List.mem_append, List.mem_append]
      rintro ((inside | inside) | inside)
      · exact free first (by simp) inside
      · exact outside inside
      · exact ih (fun piece within => free piece (by simp [within])) inside

/-- Joining the pieces of a text gives the text back. -/
theorem intercalate_split (d : Char) (cs : List Char) : List.intercalate [d] (split d cs) = cs := by
  induction cs with
  | nil => rfl
  | cons c cs ih =>
    simp only [split, List.foldr_cons]
    change List.intercalate [d] (if c = d then [] :: split d cs else
      match split d cs with
      | [] => [[c]]
      | first :: rest => (c :: first) :: rest) = c :: cs
    cases pieces : split d cs with
    | nil => exact absurd pieces (split_ne_nil d cs)
    | cons first rest =>
      rw [pieces] at ih
      split
      · rename_i same
        rw [List.intercalate_cons_cons, ih, same]
        rfl
      · cases rest with
        | nil => simpa using ih
        | cons second rest => simpa [List.intercalate_cons_cons] using ih

/-- No piece holds the separator. -/
theorem not_mem_of_mem_split {d : Char} {cs piece : List Char} (found : piece ∈ split d cs) : d ∉ piece := by
  induction cs generalizing piece with
  | nil => simp_all
  | cons c cs ih =>
    simp only [split, List.foldr_cons] at found
    change piece ∈ (if c = d then [] :: split d cs else
      match split d cs with
      | [] => [[c]]
      | first :: rest => (c :: first) :: rest) at found
    cases pieces : split d cs with
    | nil => exact absurd pieces (split_ne_nil d cs)
    | cons first rest =>
      rw [pieces] at found ih
      split at found
      · rcases List.mem_cons.1 found with rfl | inside
        · simp
        · exact ih inside
      · rename_i other
        rcases List.mem_cons.1 found with rfl | inside
        · have free := ih (List.mem_cons_self ..)
          simp [free, Ne.symm other]
        · exact ih (List.mem_cons_of_mem _ inside)

/-- The pieces between the doubled occurrences of a character, taken from the left. -/
def splitDoubled (d : Char) : List Char → List (List Char)
  | [] => [[]]
  | [c] => [[c]]
  | c :: next :: cs =>
    if c = d ∧ next = d then
      [] :: splitDoubled d cs
    else
      match splitDoubled d (next :: cs) with
      | [] => [[c]]
      | first :: rest => (c :: first) :: rest

theorem splitDoubled_append_cons {d : Char} {piece : List Char} (free : d ∉ piece) (cs : List Char) :
    splitDoubled d (piece ++ d :: d :: cs) = piece :: splitDoubled d cs := by
  induction piece with
  | nil => simp [splitDoubled]
  | cons c piece ih =>
    simp only [List.mem_cons, not_or] at free
    have inner := ih free.2
    obtain ⟨next, rest, shape⟩ : ∃ next rest, piece ++ d :: d :: cs = next :: rest := by
      cases piece <;> exact ⟨_, _, rfl⟩
    rw [List.cons_append, shape, splitDoubled, if_neg (fun both => free.1 both.1.symm), ← shape, inner]

theorem splitDoubled_of_not_mem {d : Char} {piece : List Char} (free : d ∉ piece) :
    splitDoubled d piece = [piece] := by
  induction piece with
  | nil => rfl
  | cons c piece ih =>
    simp only [List.mem_cons, not_or] at free
    have inner := ih free.2
    cases piece with
    | nil => rfl
    | cons next rest => rw [splitDoubled, if_neg (fun both => free.1 both.1.symm), inner]

/-- What stands before and behind the last occurrence of a character. -/
def cutLast? (d : Char) (cs : List Char) : Option (List Char × List Char) :=
  match cs.reverse.dropWhile (· ≠ d) with
  | [] => none
  | _ :: front => some (front.reverse, (cs.reverse.takeWhile (· ≠ d)).reverse)

theorem cutLast?_append_cons {d : Char} (front : List Char) {last : List Char} (free : d ∉ last) :
    cutLast? d (front ++ d :: last) = some (front, last) := by
  have others : ∀ c ∈ last.reverse, decide (c ≠ d) = true := by
    intro c inside
    simp only [decide_eq_true_eq]
    rintro rfl
    exact free (List.mem_reverse.mp inside)
  have turned : (front ++ d :: last).reverse = last.reverse ++ d :: front.reverse := by
    simp
  rw [cutLast?, turned, List.dropWhile_append_of_pos others, List.takeWhile_append_of_pos others]
  simp

theorem eq_of_cutLast? {d : Char} {cs front last : List Char} (cut : cutLast? d cs = some (front, last)) :
    cs = front ++ d :: last := by
  unfold cutLast? at cut
  split at cut
  next => cases cut
  next sign kept dropped =>
    cases cut
    have whole := List.takeWhile_append_dropWhile (p := (· ≠ d)) (l := cs.reverse)
    have stop := List.head?_dropWhile_not (· ≠ d) cs.reverse
    rw [dropped] at whole stop
    have same : sign = d := by simpa using stop
    rw [same] at whole
    have turned := congrArg List.reverse whole
    rw [List.reverse_reverse, List.reverse_append, List.reverse_cons, List.append_assoc] at turned
    exact turned.symm

/-- Whether a text occurs inside another one. -/
def occursIn (part : List Char) : List Char → Bool
  | [] => part.isEmpty
  | c :: cs => part.isPrefixOf (c :: cs) || occursIn part cs

end CrossRef.Text
