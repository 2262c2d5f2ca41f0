import CrossRef.Location
import CrossRef.Proofs.SolutionRuns

/-! Written locations and their reading. A location that has been read can be written out and read again, and so can any
location whose file has a name that does not start with a blank; colons and numbers inside the name do no harm, since the
numbers are taken from the right. -/

namespace CrossRef.Location

open Text (isBlank natural? cutLast? trim)

structure IsFileName (file : String) : Prop where
  filled : file ≠ ""
  starts : file.toList.head?.any isBlank = false

/-- A location that can be written and read back: its file has a name for it, and its line and column count from one
and stay below the bound. -/
structure Writable (l : Location) : Prop where
  file : IsFileName l.file.text
  line : 0 < l.line ∧ l.line < bound
  column : 0 < l.column ∧ l.column < bound

variable {l : Location} {n : Nat} {cs : List Char}

private theorem colon_not_mem_toDigits : ':' ∉ Nat.toDigits 10 n := by
  intro inside
  cases Text.isDigit_of_mem_toDigits inside

private theorem not_isBlank_of_isDigit {c : Char} (digit : Text.isDigit c = true) : isBlank c = false := by
  simp only [Text.isDigit, Bool.and_eq_true, decide_eq_true_eq, Char.le_def, UInt32.le_iff_toNat_le] at digit
  obtain ⟨low, high⟩ := digit
  change 48 ≤ c.toNat at low
  change c.toNat ≤ 57 at high
  simp only [isBlank, Text.blankRanges, List.any_cons, List.any_nil, Bool.or_false, Bool.or_eq_false_iff,
    Bool.and_eq_false_iff, decide_eq_false_iff_not]
  omega

private theorem isNumberLike_toDigits : isNumberLike (Nat.toDigits 10 n) = true := by
  have digits : ∀ c ∈ (Nat.toDigits 10 n).dropWhile (· == '-'), Text.isDigit c = true :=
    fun c inside => Text.isDigit_of_mem_toDigits ((List.dropWhile_sublist _).mem inside)
  rw [isNumberLike, List.all_eq_true.mpr digits, Bool.and_true, Bool.not_eq_true', List.isEmpty_eq_false_iff]
  exact Nat.toDigits_ne_nil

private theorem readNumber_toDigits (which : Coordinate) (counted : 0 < n ∧ n < bound) :
    readNumber which (Nat.toDigits 10 n) = .ok n := by
  have plain : (Nat.toDigits 10 n).head? ≠ some '-' := by
    intro minus
    cases Text.isDigit_of_mem_toDigits (List.mem_of_mem_head? minus)
  obtain ⟨count, rfl⟩ := Nat.exists_eq_succ_of_ne_zero (Nat.pos_iff_ne_zero.mp counted.1)
  rw [readNumber, if_neg plain, Text.natural?_toDigits counted.2]

private theorem counted_of_readNumber {which : Coordinate} (read : readNumber which cs = .ok n) :
    0 < n ∧ n < bound := by
  unfold readNumber at read
  split at read
  · cases read
  · split at read
    · cases read
    · cases read
    next found =>
      cases read
      exact ⟨Nat.succ_pos _, Text.lt_of_natural? found⟩

private theorem toList_text (l : Location) :
    l.text.toList = l.file.text.toList ++ ':' :: (Nat.toDigits 10 l.line ++ ':' :: Nat.toDigits 10 l.column) := by
  simp [text]

private theorem pieces?_text (l : Location) :
    pieces? l.text.toList =
      some (l.file.text.toList, Nat.toDigits 10 l.line, some (Nat.toDigits 10 l.column)) := by
  have joined : l.text.toList = (l.file.text.toList ++ ':' :: Nat.toDigits 10 l.line) ++ ':' :: Nat.toDigits 10 l.column := by
    rw [toList_text, List.append_assoc, List.cons_append]
  rw [pieces?, joined, Text.cutLast?_append_cons _ colon_not_mem_toDigits]
  simp only [Option.bind_eq_bind, Option.bind_some]
  rw [Text.cutLast?_append_cons _ colon_not_mem_toDigits]
  simp only [isNumberLike_toDigits, if_true]

private theorem append_of_pieces? {file line : List Char} {column : Option (List Char)}
    (pieces : pieces? cs = some (file, line, column)) : ∃ rest, cs = file ++ ':' :: rest := by
  unfold pieces? at pieces
  obtain ⟨⟨front, last⟩, cut, pieces⟩ := Option.bind_eq_some_iff.mp pieces
  have whole := Text.eq_of_cutLast? cut
  simp only at pieces
  split at pieces
  next head middle inner =>
    have front_eq := Text.eq_of_cutLast? inner
    split at pieces
    · cases pieces
      rw [front_eq, List.append_assoc, List.cons_append] at whole
      exact ⟨_, whole⟩
    · cases pieces
      exact ⟨_, whole⟩
  next =>
    cases pieces
    exact ⟨_, whole⟩

private theorem Writable.trim_text (writable : l.Writable) : trim l.text.toList = l.text.toList := by
  have shape := toList_text l
  have filled : l.text.toList ≠ [] := by
    rw [shape]
    simp
  have first : l.text.toList.head?.any isBlank = false := by
    cases name : l.file.text.toList with
    | nil => exact absurd (String.toList_eq_nil_iff.mp name) writable.file.filled
    | cons c cs =>
      have starts := writable.file.starts
      rw [name] at starts
      rw [shape, name]
      exact starts
  have last : l.text.toList.getLast?.any isBlank = false := by
    have digits : ∀ c ∈ Nat.toDigits 10 l.column, isBlank c = false :=
      fun c inside => not_isBlank_of_isDigit (Text.isDigit_of_mem_toDigits inside)
    have ends := Text.any_getLast?_append (l.file.text.toList ++ ':' :: (Nat.toDigits 10 l.line ++ [':']))
      Nat.toDigits_ne_nil digits
    simpa [shape] using ends
  have stripped := Text.stripBoth_append [] [] filled first last
  simpa [trim] using stripped

/-- A location that can be written is read back from its text. -/
theorem Writable.parse_text (writable : l.Writable) : parse l.text = .ok l := by
  have filled : l.text.toList ≠ [] := by
    rw [toList_text]
    simp
  have file : Path.ofText (String.ofList l.file.text.toList) = l.file := by
    apply Path.ext_text
    rw [String.ofList_toList]
    rfl
  have named : l.file.text.toList ≠ [] := fun nothing => writable.file.filled (String.toList_eq_nil_iff.mp nothing)
  unfold parse
  simp only [writable.trim_text, pieces?_text, List.isEmpty_iff, filled, named, if_false,
    readNumber_toDigits _ writable.line, readNumber_toDigits _ writable.column, file]
  rfl

theorem writable_of_parse {input : String} (read : parse input = .ok l) : l.Writable := by
  unfold parse at read
  simp only at read
  split at read
  · cases read
  simp only [pure_bind] at read
  split at read
  · cases read
  next file line column pieces =>
    split at read
    · cases read
    next named =>
      rw [List.isEmpty_iff] at named
      have starts : file.head?.any isBlank = false := by
        obtain ⟨rest, whole⟩ := append_of_pieces? pieces
        have stripped := Text.head?_stripBoth isBlank input.toList
        rw [← trim, whole] at stripped
        cases file with
        | nil => rfl
        | cons c cs => exact stripped
      obtain ⟨lineNumber, lineRead, read⟩ := bind_eq_ok read
      obtain ⟨columnNumber, counted, rfl⟩ : ∃ columnNumber, (0 < columnNumber ∧ columnNumber < bound) ∧
          ⟨.ofText (String.ofList file), lineNumber, columnNumber⟩ = l := by
        cases column with
        | none =>
          cases read
          exact ⟨1, by decide, rfl⟩
        | some digits =>
          obtain ⟨columnNumber, columnRead, made⟩ := bind_eq_ok read
          cases made
          exact ⟨columnNumber, counted_of_readNumber columnRead, rfl⟩
      refine ⟨⟨?_, ?_⟩, counted_of_readNumber lineRead, counted⟩
      · simpa [Path.ofText] using named
      · simpa [Path.ofText] using starts

end CrossRef.Location
