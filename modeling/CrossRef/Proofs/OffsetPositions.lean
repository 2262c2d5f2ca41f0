import CrossRef.Proofs.NamedPlaces

/-! Offsets and positions. Every offset of a text is on one line, from its first byte to the newline behind it, and a
position counts from the start of the line up to the end of its content. Both ways lead back, with one exception: a
return at the end of a line is no content, so the offset behind it gets the position in front of it. -/

namespace CrossRef
open Syntax

namespace Text

/-- The offset is the end of a line, and the last byte of the line is a return. -/
def EndsInReturn (text : String) (offset : Nat) : Prop :=
  between? text (offset - 1) offset = some "\r" ∧
    (offset = text.utf8ByteSize ∨ between? text offset (offset + 1) = some "\n")

instance (text : String) (offset : Nat) : Decidable (EndsInReturn text offset) :=
  inferInstanceAs (Decidable (_ ∧ _))

theorem endsInReturn_iff_append {text : String} {offset : Nat} :
    EndsInReturn text offset ↔
      ∃ front back, text = front ++ "\r" ++ back ∧ (front ++ "\r").utf8ByteSize = offset ∧
        (back = "" ∨ ∃ rest, back = "\n" ++ rest) := by
  have return_ : "\r".utf8ByteSize = 1 := rfl
  have newline : "\n".utf8ByteSize = 1 := rfl
  constructor
  · intro ⟨behind, ends⟩
    obtain ⟨front, back, parts, -, stop⟩ := between?_eq_some_iff.mp behind
    refine ⟨front, back, parts, stop, ?_⟩
    rcases ends with last | next
    · left
      have sizes := congrArg String.utf8ByteSize parts
      rw [String.utf8ByteSize_append, stop, last] at sizes
      exact String.utf8ByteSize_eq_zero_iff.mp (by omega)
    · right
      obtain ⟨left, rest, other, start, -⟩ := between?_eq_some_iff.mp next
      rw [parts, @String.append_assoc left] at other
      exact ⟨rest, (Rename.append_inj_of_size other (stop.trans start.symm)).2⟩
  · rintro ⟨front, back, rfl, rfl, ends⟩
    constructor
    · apply between?_eq_some_iff.mpr
      refine ⟨front, back, rfl, ?_, rfl⟩
      rw [String.utf8ByteSize_append, return_, Nat.add_sub_cancel]
    · rcases ends with rfl | ⟨rest, rfl⟩
      · left
        rw [String.append_empty]
      · right
        apply between?_eq_some_iff.mpr
        refine ⟨front ++ "\r", rest, ?_, rfl, ?_⟩
        · rw [@String.append_assoc (front ++ "\r")]
        · rw [@String.utf8ByteSize_append (front ++ "\r"), newline]

private theorem size_withoutReturn (piece : List Char) :
    size piece = size (withoutReturn piece) + if piece.getLast? = some '\r' then 1 else 0 := by
  unfold withoutReturn
  split
  next ended =>
    obtain ⟨front, rfl⟩ := List.getLast?_eq_some_iff.mp ended
    simp [show Char.utf8Size '\r' = 1 from rfl]
  next => rfl

theorem length_le_size_lines (before : List (List Char)) :
    before.length ≤ size (before.flatMap (· ++ ['\n'])) := by
  induction before with
  | nil => exact Nat.le_refl 0
  | cons piece rest ih =>
    have newline : Char.utf8Size '\n' = 1 := rfl
    simp only [List.flatMap_cons, size_append, size_cons, size_nil, newline, List.length_cons]
    omega

private theorem getLast?_lines (before : List (List Char)) :
    (before.flatMap (· ++ ['\n'])).getLast? ≠ some '\r' := by
  rcases List.eq_nil_or_concat before with rfl | ⟨init, piece, rfl⟩
  · exact nofun
  · simp

/-- Each offset up to the end is on one of the pieces between newlines, the newline behind it included. -/
theorem exists_piece {pieces : List (List Char)} (nonempty : pieces ≠ []) {offset : Nat}
    (inside : offset ≤ size (List.intercalate ['\n'] pieces)) :
    ∃ before piece after, pieces = before ++ piece :: after ∧ size (before.flatMap (· ++ ['\n'])) ≤ offset ∧
      offset ≤ size (before.flatMap (· ++ ['\n'])) + size piece := by
  induction pieces generalizing offset with
  | nil => contradiction
  | cons piece rest ih =>
    by_cases here : offset ≤ size piece
    · exact ⟨[], piece, rest, rfl, Nat.zero_le _, by simpa using here⟩
    · have newline : Char.utf8Size '\n' = 1 := rfl
      cases rest with
      | nil => exact absurd (by simpa using inside) here
      | cons second rest =>
        simp only [List.intercalate_cons_cons, size_append, size_cons, size_nil, newline] at inside
        obtain ⟨before, other, after, parts, first, last⟩ :=
          ih (by simp) (show offset - (size piece + 1) ≤ _ by omega)
        refine ⟨piece :: before, other, after, by rw [parts, List.cons_append], ?_, ?_⟩
        all_goals
          simp only [List.flatMap_cons, size_append, size_cons, size_nil, newline]
          omega

end Text

namespace LineIndex

theorem exists_line {text : String} {offset : Nat} (inside : offset ≤ text.utf8ByteSize) :
    ∃ before piece after, Text.split '\n' text.toList = before ++ piece :: after ∧
      Text.size (before.flatMap (· ++ ['\n'])) ≤ offset ∧
      offset ≤ Text.size (before.flatMap (· ++ ['\n'])) + Text.size piece := by
  apply Text.exists_piece (Text.split_ne_nil '\n' text.toList)
  rwa [Text.intercalate_split, Text.size_toList]

section line

variable {text : String} {before after : List (List Char)} {piece : List Char}
  (pieces : Text.split '\n' text.toList = before ++ piece :: after)

include pieces

private theorem offsetOf?_ofText (column : Nat) :
    (ofText text).offsetOf? ⟨before.length, column⟩ =
      if column ≤ Text.size (Text.withoutReturn piece) then
        some (Text.size (before.flatMap (· ++ ['\n'])) + column)
      else none := by
  rw [offsetOf?, lineSpan?_ofText pieces]
  rfl

variable {offset : Nat} (first : Text.size (before.flatMap (· ++ ['\n'])) ≤ offset)
  (last : offset ≤ Text.size (before.flatMap (· ++ ['\n'])) + Text.size piece)

include first last

private theorem positionOf?_ofText :
    (ofText text).positionOf? offset = some ⟨before.length,
      min (offset - Text.size (before.flatMap (· ++ ['\n']))) (Text.size (Text.withoutReturn piece))⟩ := by
  rw [positionOf?, lineOf?_ofText pieces first last, Option.bind_eq_bind, Option.bind_some, lineSpan?_ofText pieces]
  rfl

private theorem exists_cut {front back : String} (parts : text = front ++ back) (stop : front.utf8ByteSize = offset) :
    ∃ left right, piece = left ++ right ∧ front.toList = before.flatMap (· ++ ['\n']) ++ left ∧
      back.toList = right ++ tailText after := by
  have bytes : ∀ cs : List Char, (String.ofList cs).utf8ByteSize = Text.size cs := by
    intro cs
    rw [← Text.size_toList, String.toList_ofList]
  have whole : String.ofList (before.flatMap (· ++ ['\n'])) ++ String.ofList (piece ++ tailText after) = text := by
    apply String.toList_inj.mp
    simp [toList_of_split pieces]
  obtain ⟨left, upTo, behind⟩ := Text.exists_append_of_size_le (whole.trans parts) (by rw [bytes, stop]; exact first)
  have sizes := congrArg String.utf8ByteSize upTo
  rw [stop, String.utf8ByteSize_append, bytes] at sizes
  rw [String.ofList_append] at behind
  obtain ⟨right, cut, tail⟩ := Text.exists_append_of_size_le behind.symm (by rw [bytes]; omega)
  refine ⟨left.toList, right.toList, ?_, ?_, ?_⟩
  · rw [← String.toList_append, ← cut, String.toList_ofList]
  · rw [upTo, String.toList_append, String.toList_ofList]
  · rw [tail, String.toList_append, String.toList_ofList]

/-- On its line, the exception is the offset behind a return that ends the piece. -/
theorem endsInReturn_iff :
    Text.EndsInReturn text offset ↔
      offset = Text.size (before.flatMap (· ++ ['\n'])) + Text.size piece ∧ piece.getLast? = some '\r' := by
  rw [Text.endsInReturn_iff_append]
  constructor
  · intro ⟨front, back, parts, stop, ends⟩
    obtain ⟨left, right, rfl, upTo, behind⟩ := exists_cut pieces first last parts stop
    -- What is behind the offset starts with a newline, and the piece holds none.
    have nothing : right = [] := by
      have free : '\n' ∉ left ++ right := Text.not_mem_of_mem_split (by rw [pieces]; simp)
      cases right with
      | nil => rfl
      | cons c cs =>
        rcases ends with rfl | ⟨next, rfl⟩
        · cases behind
        · rw [String.toList_append] at behind
          obtain rfl : '\n' = c := (List.cons.inj behind).1
          exact absurd (by simp) free
    subst nothing
    rw [List.append_nil]
    constructor
    · rw [← stop, ← Text.size_toList, upTo, Text.size_append]
    · have ended := congrArg List.getLast? upTo
      rw [String.toList_append, List.getLast?_append, List.getLast?_append] at ended
      cases returned : left.getLast? with
      | none =>
        rw [returned, Option.none_or] at ended
        exact absurd ended.symm (Text.getLast?_lines before)
      | some c =>
        rw [returned] at ended
        exact ended.symm
  · rintro ⟨rfl, ended⟩
    obtain ⟨front, rfl⟩ := List.getLast?_eq_some_iff.mp ended
    refine ⟨String.ofList (before.flatMap (· ++ ['\n']) ++ front), String.ofList (tailText after), ?_, ?_, ?_⟩
    · apply String.toList_inj.mp
      simp [toList_of_split pieces]
    · rw [← Text.size_toList, ← Text.size_append]
      simp
    · cases after with
      | nil => exact .inl rfl
      | cons next after =>
        right
        exact ⟨String.ofList (List.intercalate ['\n'] (next :: after)), String.ofList_cons ..⟩

end line

variable {text : String} {offset other : Nat} {p q : Position}

private theorem exists_line_of_offsetOf? (found : (ofText text).offsetOf? p = some offset) :
    ∃ before piece after, Text.split '\n' text.toList = before ++ piece :: after ∧ before.length = p.line ∧
      p.column ≤ Text.size (Text.withoutReturn piece) ∧
      offset = Text.size (before.flatMap (· ++ ['\n'])) + p.column := by
  obtain ⟨span, here, -⟩ := Option.bind_eq_some_iff.mp found
  simp only [lineSpan?, ofText, List.getElem?_toArray, List.getElem?_map] at here
  obtain ⟨l, listed, -⟩ := Option.map_eq_some_iff.mp here
  obtain ⟨before, piece, after, pieces, number, -⟩ := exists_split_of_getElem? listed
  have place := offsetOf?_ofText pieces p.column
  rw [number, found] at place
  split at place
  next fits => exact ⟨before, piece, after, pieces, number, fits, Option.some.inj place⟩
  next => cases place

theorem positionOf?_of_offsetOf? (found : (ofText text).offsetOf? p = some offset) :
    (ofText text).positionOf? offset = some p := by
  obtain ⟨before, piece, after, pieces, number, fits, rfl⟩ := exists_line_of_offsetOf? found
  have whole := Text.size_withoutReturn piece
  rw [positionOf?_ofText pieces (by omega) (by omega), Nat.add_sub_cancel_left, Nat.min_eq_left fits, number]

private theorem offsetOf?_of_positionOf? (inside : offset ≤ text.utf8ByteSize) :
    ((ofText text).positionOf? offset).bind (ofText text).offsetOf? =
      some (if Text.EndsInReturn text offset then offset - 1 else offset) := by
  obtain ⟨before, piece, after, pieces, first, last⟩ := exists_line inside
  have whole := Text.size_withoutReturn piece
  rw [positionOf?_ofText pieces first last, Option.bind_some, offsetOf?_ofText pieces, if_pos (Nat.min_le_right ..)]
  have exception := endsInReturn_iff pieces first last
  by_cases behind : Text.EndsInReturn text offset
  · obtain ⟨stop, ended⟩ := exception.mp behind
    rw [if_pos ended] at whole
    rw [if_pos behind, Option.some.injEq]
    omega
  · have fits : offset - Text.size (before.flatMap (· ++ ['\n'])) ≤ Text.size (Text.withoutReturn piece) := by
      by_cases ended : piece.getLast? = some '\r'
      · have short : offset ≠ _ := fun stop => behind (exception.mpr ⟨stop, ended⟩)
        rw [if_pos ended] at whole
        omega
      · rw [if_neg ended] at whole
        omega
    rw [if_neg behind, Nat.min_eq_left fits, Nat.add_sub_cancel' first]

private theorem isSome_positionOf? : ((ofText text).positionOf? offset).isSome = true ↔ offset ≤ text.utf8ByteSize := by
  constructor
  · intro found
    by_contra outside
    have missing : (ofText text).lineOf? offset = none := if_neg outside
    rw [positionOf?, missing] at found
    cases found
  · intro inside
    obtain ⟨before, piece, after, pieces, first, last⟩ := exists_line inside
    rw [positionOf?_ofText pieces first last]
    rfl

theorem line_add_column_le (found : (ofText text).positionOf? offset = some p) : p.line + p.column ≤ offset := by
  have inside := isSome_positionOf?.mp (Option.isSome_of_eq_some found)
  obtain ⟨before, piece, after, pieces, first, last⟩ := exists_line inside
  rw [positionOf?_ofText pieces first last] at found
  obtain rfl := Option.some.inj found
  have lines := Text.length_le_size_lines before
  have column := Nat.min_le_left (offset - Text.size (before.flatMap (· ++ ['\n'])))
    (Text.size (Text.withoutReturn piece))
  simp only
  omega

theorem length_takeWhile_mono {α : Type} {p q : α → Bool} (implies : ∀ x, p x = true → q x = true) (xs : List α) :
    (xs.takeWhile p).length ≤ (xs.takeWhile q).length := by
  induction xs with
  | nil => exact Nat.le_refl 0
  | cons x xs ih =>
    by_cases holds : p x = true
    · simpa [holds, implies x holds] using ih
    · simp [holds]

private theorem lineOf?_le {index : LineIndex} {line later : Nat} (order : offset ≤ other)
    (first : index.lineOf? offset = some line) (second : index.lineOf? other = some later) : line ≤ later := by
  cases (Option.ite_none_right_eq_some.mp first).2
  cases (Option.ite_none_right_eq_some.mp second).2
  apply Nat.sub_le_sub_right
  apply length_takeWhile_mono
  intro span start
  rw [decide_eq_true_eq] at start ⊢
  exact Nat.le_trans start order

private theorem positionOf?_le {index : LineIndex} (order : offset ≤ other) (first : index.positionOf? offset = some p)
    (second : index.positionOf? other = some q) : (compare p q).isLE = true := by
  obtain ⟨line, here, first⟩ := Option.bind_eq_some_iff.mp first
  obtain ⟨span, shown, first⟩ := Option.bind_eq_some_iff.mp first
  obtain ⟨later, there, second⟩ := Option.bind_eq_some_iff.mp second
  obtain ⟨next, seen, second⟩ := Option.bind_eq_some_iff.mp second
  obtain rfl := Option.some.inj first
  obtain rfl := Option.some.inj second
  have lines := lineOf?_le order here there
  apply Ordering.isLE_then_iff_and.mpr
  refine ⟨Nat.isLE_compare.mpr lines, ?_⟩
  rcases Nat.lt_or_eq_of_le lines with less | rfl
  · exact .inl (Nat.compare_eq_lt.mpr less)
  · right
    obtain rfl := Option.some.inj (shown.symm.trans seen)
    apply Nat.isLE_compare.mpr
    simp only
    omega

/-- If the end has a position, the span does not run past the text. -/
private theorem rangeOf?_eq_some {span : Span} (first : (ofText text).positionOf? span.start = some p)
    (last : (ofText text).positionOf? span.stop = some q) : (ofText text).rangeOf? span = some ⟨p, q⟩ := by
  have inside : span.stop ≤ (ofText text).size := isSome_positionOf?.mp (Option.isSome_of_eq_some last)
  rw [rangeOf?, Span.stopIn_of_le inside, first, last]
  rfl

private theorem rangeOf?_of_spanOf? {range : Range} {span : Span} (found : (ofText text).spanOf? range = some span) :
    (ofText text).rangeOf? span = some range := by
  obtain ⟨start, first, found⟩ := Option.bind_eq_some_iff.mp found
  obtain ⟨stop, last, found⟩ := Option.bind_eq_some_iff.mp found
  obtain ⟨order, made⟩ := Option.ite_none_right_eq_some.mp found
  cases made
  have ends : (Span.ofBounds start stop).stop = stop := Nat.add_sub_cancel' order
  apply rangeOf?_eq_some (positionOf?_of_offsetOf? first)
  rw [ends]
  exact positionOf?_of_offsetOf? last

private theorem spanOf?_of_rangeOf? {span : Span} (inside : span.stop ≤ text.utf8ByteSize)
    (start : ¬Text.EndsInReturn text span.start) (stop : ¬Text.EndsInReturn text span.stop) :
    ((ofText text).rangeOf? span).bind (ofText text).spanOf? = some span := by
  have order : span.start ≤ span.stop := Nat.le_add_right ..
  have first := @offsetOf?_of_positionOf? text span.start (Nat.le_trans order inside)
  have last := offsetOf?_of_positionOf? inside
  rw [if_neg start] at first
  rw [if_neg stop] at last
  obtain ⟨p, here, first⟩ := Option.bind_eq_some_iff.mp first
  obtain ⟨q, there, last⟩ := Option.bind_eq_some_iff.mp last
  have same : Span.ofBounds span.start span.stop = span := by
    rw [Span.ofBounds, Span.stop, Nat.add_sub_cancel_left]
  rw [rangeOf?_eq_some here there, Option.bind_some, spanOf?, first, last]
  exact (if_pos order).trans (congrArg some same)

end LineIndex

/-- Each position that has an offset is the position of that offset. Each offset up to the end of the text is the offset of
its position, unless it is behind a return that ends a line; then that is the offset in front of the return. Positions
follow the order of the offsets, and together their numbers do not exceed the offset, so 32 bits are enough for them in
a text that is shorter than 2^32 bytes. What holds of offsets holds of spans and ranges. -/
theorem offsets_and_positions_inverse (text : String) :
    let index := LineIndex.ofText text
    (∀ p offset, index.offsetOf? p = some offset → index.positionOf? offset = some p) ∧
    (∀ offset ≤ text.utf8ByteSize, (index.positionOf? offset).bind index.offsetOf? =
      some (if Text.EndsInReturn text offset then offset - 1 else offset)) ∧
    (∀ offset, (index.positionOf? offset).isSome = true ↔ offset ≤ text.utf8ByteSize) ∧
    (∀ first last p q, first ≤ last → index.positionOf? first = some p → index.positionOf? last = some q →
      (compare p q).isLE = true) ∧
    (∀ offset p, index.positionOf? offset = some p → p.line + p.column ≤ offset) ∧
    (∀ range span, index.spanOf? range = some span → index.rangeOf? span = some range) ∧
    ∀ span : Span, span.stop ≤ text.utf8ByteSize → ¬Text.EndsInReturn text span.start →
      ¬Text.EndsInReturn text span.stop → (index.rangeOf? span).bind index.spanOf? = some span := by
  intro index
  refine ⟨?_, ?_, ?_, ?_, ?_, ?_, ?_⟩
  · intro p offset found
    exact LineIndex.positionOf?_of_offsetOf? found
  · intro offset inside
    exact LineIndex.offsetOf?_of_positionOf? inside
  · intro offset
    exact LineIndex.isSome_positionOf?
  · intro first last p q order here there
    exact LineIndex.positionOf?_le order here there
  · intro offset p found
    exact LineIndex.line_add_column_le found
  · intro range span found
    exact LineIndex.rangeOf?_of_spanOf? found
  · intro span inside start stop
    exact LineIndex.spanOf?_of_rangeOf? inside start stop

end CrossRef

namespace CrossRef.Sample

def returns : String := "é\r\r\nb\r"

/-- The offsets of the newline and of the end are those that do not come back, and a span up to the last return does. -/
theorem returns_come_back :
    (∀ offset ≤ 7, Text.EndsInReturn returns offset ↔ offset = 4 ∨ offset = 7) ∧
      ((LineIndex.ofText returns).positionOf? 4).bind (LineIndex.ofText returns).offsetOf? = some 3 ∧
      (LineIndex.ofText returns).positionOf? 3 = some ⟨0, 3⟩ ∧
      ((LineIndex.ofText returns).rangeOf? ⟨2, 4⟩).bind (LineIndex.ofText returns).spanOf? = some ⟨2, 4⟩ := by
  obtain ⟨positions, offsets, -, -, -, -, spans⟩ := offsets_and_positions_inverse returns
  have ends : ∀ offset ≤ 7, Text.EndsInReturn returns offset ↔ offset = 4 ∨ offset = 7 := by decide
  refine ⟨ends, ?_, ?_, ?_⟩
  · rw [offsets 4 (by decide), if_pos ((ends 4 (by decide)).mpr (.inl rfl))]
  · exact positions ⟨0, 3⟩ 3 (by decide)
  · exact spans ⟨2, 4⟩ (by decide) (by decide) (by decide)

end CrossRef.Sample
