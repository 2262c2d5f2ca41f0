import CrossRef.Rename.Occurrence

/-! Replacing occurrences line by line. As long as lines stay lines, replacing one occurrence after the
other in the whole text gives what the same replacements give in the single lines. -/

namespace CrossRef.Rename

/-- The bytes of a line before its terminator, to which one carriage return belongs. -/
def contentSize (line : String) : Nat :=
  let size := line.utf8ByteSize
  if Text.between? line (size - 1) size = some "\r" then size - 1 else size

/-- Replaces the name between two columns of a line, if it is there. -/
def replaceInLine (name new : String) (start stop : Nat) (line : String) : String :=
  if start ≤ stop ∧ stop ≤ contentSize line then replaceAt name new line (Span.ofBounds start stop)
  else line

/-- The lines of a text, each with its carriage return. -/
def rawLines (text : String) : List String :=
  (Text.split '\n' text.toList).map String.ofList

/-- Replaces one occurrence after the other in the lines that they are on. -/
def lineByLine (name new : String) (ranges : List Range) (lines : Array String) : Array String :=
  ranges.foldl (fun lines range =>
    lines.modify range.start.line (replaceInLine name new range.start.column range.stop.column)) lines

/-- Whether lines stay lines when something new is put in the place of ranges. -/
def keepsLines (new : String) (ranges : List Range) : Bool :=
  !new.toList.contains '\n' && ranges.all fun range => range.start.line == range.stop.line

theorem contentSize_eq (line : String) : contentSize line = Text.size (Text.withoutReturn line.toList) := by
  unfold contentSize Text.withoutReturn
  by_cases ended : line.toList.getLast? = some '\r'
  · obtain ⟨front, whole⟩ := List.getLast?_eq_some_iff.1 ended
    obtain rfl : line = String.ofList front ++ "\r" := String.toList_inj.1 (by simpa using whole)
    have found := Text.between?_append (String.ofList front) "\r" ""
    have one : String.utf8ByteSize "\r" = 1 := rfl
    have before : (String.ofList front ++ "\r").utf8ByteSize - 1 = (String.ofList front).utf8ByteSize := by
      rw [String.utf8ByteSize_append, one]
      omega
    rw [String.append_empty] at found
    simp only [before, found, if_true, ended]
    rw [whole, List.dropLast_concat, ← Text.size_toList, String.toList_ofList]
  · have missing : Text.between? line (line.utf8ByteSize - 1) line.utf8ByteSize ≠ some "\r" := by
      intro found
      obtain ⟨front, back, rfl, _, size⟩ := Text.between?_eq_some_iff.1 found
      have nothing : back = "" := by
        simp only [String.utf8ByteSize_append] at size
        exact String.utf8ByteSize_eq_zero_iff.1 (by omega)
      subst nothing
      exact ended (by simp)
    simp [missing, ended]

theorem contentSize_le (line : String) : contentSize line ≤ line.utf8ByteSize := by
  simp only [contentSize]
  split <;> omega

/-- The text in front of a line: the lines before it, each with its newline. -/
def frontOf (before : List String) : String :=
  String.join (before.map (· ++ "\n"))

/-- The text behind a line: the lines after it, each behind a newline. -/
def backOf (after : List String) : String :=
  String.join (after.map ("\n" ++ ·))

theorem intercalate_around (before : List String) (line : String) (after : List String) :
    "\n".intercalate (before ++ line :: after) = frontOf before ++ line ++ backOf after := by
  have behind : "\n".intercalate (line :: after) = line ++ backOf after := by
    induction after generalizing line with
    | nil => simp [backOf]
    | cons next after ih =>
      rw [String.intercalate_cons_cons, ih]
      simp [backOf, String.append_assoc]
  induction before with
  | nil => simp [behind, frontOf]
  | cons first before ih =>
    rw [List.cons_append, String.intercalate_cons_of_ne_nil (by simp), ih]
    simp [frontOf, String.append_assoc]

theorem split_intercalate_lines {lines : List String} (free : ∀ line ∈ lines, '\n' ∉ line.toList)
    (nonempty : lines ≠ []) :
    Text.split '\n' ("\n".intercalate lines).toList = lines.map String.toList := by
  rw [String.toList_intercalate]
  exact Text.split_intercalate (by simpa using nonempty) (by simpa using free)

/-- Where the index of a text has one of its lines. -/
theorem lineSpan?_intercalate {before after : List String} {line : String}
    (free : ∀ other ∈ before ++ line :: after, '\n' ∉ other.toList) :
    (LineIndex.ofText ("\n".intercalate (before ++ line :: after))).lineSpan? before.length =
      some ⟨(frontOf before).utf8ByteSize, contentSize line⟩ := by
  have pieces := split_intercalate_lines free (by simp)
  rw [List.map_append, List.map_cons] at pieces
  have found := LineIndex.lineSpan?_ofText pieces
  have front : (before.map String.toList).flatMap (· ++ ['\n']) = (frontOf before).toList := by
    simp [frontOf, List.flatMap_map]
  rwa [List.length_map, front, Text.size_toList, ← contentSize_eq] at found

/-- A range on a line means what is between its columns, if they are in order and inside the line's content. -/
theorem spanOf?_intercalate {before after : List String} {line : String} {range : Range}
    (free : ∀ other ∈ before ++ line :: after, '\n' ∉ other.toList) (first : range.start.line = before.length)
    (last : range.stop.line = before.length) :
    (LineIndex.ofText ("\n".intercalate (before ++ line :: after))).spanOf? range =
      if range.start.column ≤ range.stop.column ∧ range.stop.column ≤ contentSize line then
        some ⟨(frontOf before).utf8ByteSize + range.start.column, range.stop.column - range.start.column⟩
      else none := by
  have span := lineSpan?_intercalate free
  simp only [LineIndex.spanOf?, LineIndex.offsetOf?, first, last, span, Option.bind_eq_bind, Option.bind_some]
  by_cases begins : range.start.column ≤ contentSize line
  · by_cases ends : range.stop.column ≤ contentSize line
    · by_cases ordered : range.start.column ≤ range.stop.column
      · simp [begins, ends, ordered, Span.ofBounds, Nat.add_sub_add_left]
      · simp [begins, ends, ordered]
    · simp [begins, ends]
  · have outside : ¬(range.start.column ≤ range.stop.column ∧ range.stop.column ≤ contentSize line) := by omega
    simp [begins, outside]

/-- A range that begins behind the last line means nothing. -/
theorem spanOf?_of_length_le {lines : List String} {range : Range} (free : ∀ line ∈ lines, '\n' ∉ line.toList)
    (nonempty : lines ≠ []) (behind : lines.length ≤ range.start.line) :
    (LineIndex.ofText ("\n".intercalate lines)).spanOf? range = none := by
  have missing : (LineIndex.ofText ("\n".intercalate lines)).lineSpan? range.start.line = none := by
    have count := LineIndex.lineCount_ofText ("\n".intercalate lines)
    rw [split_intercalate_lines free nonempty, List.length_map] at count
    simp only [LineIndex.lineSpan?, LineIndex.lineCount] at count ⊢
    exact Array.getElem?_eq_none (by omega)
  simp [LineIndex.spanOf?, LineIndex.offsetOf?, missing]

/-- A replacement at a range on one line is a replacement in that line. -/
theorem replaceOne_intercalate {lines : List String} {range : Range}
    (free : ∀ line ∈ lines, '\n' ∉ line.toList) (nonempty : lines ≠ [])
    (single : range.start.line = range.stop.line) (name new : String) :
    replaceOne name new ("\n".intercalate lines) range =
      "\n".intercalate (lines.modify range.start.line
        (replaceInLine name new range.start.column range.stop.column)) := by
  by_cases inside : range.start.line < lines.length
  · obtain ⟨before, line, after, rfl, length, modified⟩ :=
      List.exists_of_modify (replaceInLine name new range.start.column range.stop.column) inside
    rw [modified, intercalate_around before (replaceInLine ..), replaceOne,
      spanOf?_intercalate free length.symm (single.symm.trans length.symm), replaceInLine]
    split
    · rename_i fits
      have short : (Span.ofBounds range.start.column range.stop.column).stop ≤ line.utf8ByteSize := by
        have := contentSize_le line
        simp only [Span.ofBounds, Span.stop]
        omega
      rw [intercalate_around, Option.elim_some, ← replaceAt_within _ _ _ _ _ _ short]
      rfl
    · rw [intercalate_around, Option.elim_none]
  · rw [List.modify_eq_self (by omega), replaceOne, spanOf?_of_length_le free nonempty (by omega), Option.elim_none]

theorem newline_not_mem_replaceInLine {new line : String} (freeNew : '\n' ∉ new.toList)
    (free : '\n' ∉ line.toList) (name : String) (start stop : Nat) :
    '\n' ∉ (replaceInLine name new start stop line).toList := by
  unfold replaceInLine
  split
  · rcases replaceAt_cases name new line (Span.ofBounds start stop) with same | ⟨front, shown, back, rfl, _, eq⟩
    · rwa [same]
    · rw [eq]
      simp only [String.toList_append, List.mem_append, not_or] at free ⊢
      exact ⟨⟨free.1.1, freeNew⟩, free.2⟩
  · exact free

/-- Working line by line is working on the whole text. -/
theorem intercalate_lineByLine {new : String} {ranges : List Range} (keeps : keepsLines new ranges = true)
    (lines : Array String) (free : ∀ line ∈ lines.toList, '\n' ∉ line.toList) (nonempty : lines.toList ≠ [])
    (name : String) :
    "\n".intercalate (lineByLine name new ranges lines).toList =
      ranges.foldl (replaceOne name new) ("\n".intercalate lines.toList) := by
  induction ranges generalizing lines with
  | nil => rfl
  | cons range rest ih =>
    simp only [keepsLines, List.all_cons, Bool.and_eq_true, beq_iff_eq] at keeps ih
    have freeNew : '\n' ∉ new.toList := by simpa using keeps.1
    rw [List.foldl_cons, replaceOne_intercalate free nonempty keeps.2.1, ← Array.toList_modify]
    refine ih ⟨keeps.1, keeps.2.2⟩ _ ?_ ?_
    · intro line inside
      rw [Array.toList_modify] at inside
      obtain ⟨place, found⟩ := List.mem_iff_getElem?.1 inside
      rw [List.getElem?_modify] at found
      obtain ⟨old, before, rfl⟩ := Option.map_eq_some_iff.1 found
      have freeOld := free old (List.mem_of_getElem? before)
      split
      · exact newline_not_mem_replaceInLine freeNew freeOld _ _ _
      · exact freeOld
    · simpa [Array.toList_modify, List.modify_eq_nil_iff] using nonempty

theorem newline_not_mem_rawLines {text line : String} (member : line ∈ rawLines text) : '\n' ∉ line.toList := by
  obtain ⟨piece, inside, rfl⟩ := List.mem_map.1 member
  simpa using Text.not_mem_of_mem_split inside

theorem rawLines_ne_nil (text : String) : rawLines text ≠ [] := by
  simpa [rawLines] using Text.split_ne_nil '\n' text.toList

theorem intercalate_rawLines (text : String) : "\n".intercalate (rawLines text) = text := by
  apply String.toList_inj.1
  have joined := Text.intercalate_split '\n' text.toList
  simpa [rawLines, String.toList_intercalate, Function.comp_def] using joined

end CrossRef.Rename
