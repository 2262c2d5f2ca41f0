import CrossRef.Text.Span
import CrossRef.Text.Split

/-! The lines of a text. A line ends at a newline, and one carriage return before it belongs to the
terminator too. The line index converts between offsets and positions. -/

namespace CrossRef

namespace Text

/-- Drops one carriage return from the end. -/
def withoutReturn (cs : List Char) : List Char :=
  if cs.getLast? = some '\r' then cs.dropLast else cs

end Text

/-- A line: the offset of its first byte, and its content without the terminator. -/
structure Line where
  start : Nat
  content : List Char
deriving DecidableEq, Repr, Inhabited

namespace Line

/-- The span of the line's content. -/
def span (l : Line) : Span :=
  ⟨l.start, Text.size l.content⟩

/-- Gives each piece between newlines its place behind the lines that have one, last line first. -/
def placeBehind (placed : List Line) : (start : Nat) → List (List Char) → List Line
  | _, [] => placed.reverse
  | start, piece :: rest =>
    placeBehind (⟨start, Text.withoutReturn piece⟩ :: placed) (start + Text.size piece + 1) rest

/-- Gives each piece between newlines its place, the first one at `start`. -/
def place (start : Nat) (pieces : List (List Char)) : List Line :=
  placeBehind [] start pieces

theorem placeBehind_eq (placed : List Line) (start : Nat) (pieces : List (List Char)) :
    placeBehind placed start pieces = placed.reverse ++ place start pieces := by
  unfold place
  induction pieces generalizing placed start with
  | nil => simp [placeBehind]
  | cons piece rest ih => rw [placeBehind, placeBehind, ih, ih [_]]; simp

@[simp] theorem place_nil (start : Nat) : place start [] = [] := rfl

@[simp] theorem place_cons (start : Nat) (piece : List Char) (rest : List (List Char)) :
    place start (piece :: rest) =
      ⟨start, Text.withoutReturn piece⟩ :: place (start + Text.size piece + 1) rest := by
  rw [place, placeBehind, placeBehind_eq]
  rfl

@[simp] theorem length_place (start : Nat) (pieces : List (List Char)) :
    (place start pieces).length = pieces.length := by
  induction pieces generalizing start with
  | nil => rfl
  | cons piece rest ih => simp [ih]

/-- The lines behind some pieces start behind those pieces and their newlines. -/
theorem place_append (start : Nat) (before after : List (List Char)) :
    place start (before ++ after) =
      place start before ++ place (start + Text.size (before.flatMap (· ++ ['\n']))) after := by
  induction before generalizing start with
  | nil => simp
  | cons piece rest ih =>
    have newline : Char.utf8Size '\n' = 1 := rfl
    simp [ih, newline, Nat.add_assoc]

/-- The lines of a text; there is always at least one. -/
def ofText (text : List Char) : List Line :=
  place 0 (Text.split '\n' text)

end Line

/-- Where the lines of a text are, and how long the text is. -/
structure LineIndex where
  lines : Array Span
  size : Nat
deriving DecidableEq, Repr, Inhabited

namespace LineIndex

def ofText (text : String) : LineIndex :=
  ⟨((Line.ofText text.toList).map Line.span).toArray, text.utf8ByteSize⟩

def lineCount (index : LineIndex) : Nat :=
  index.lines.size

/-- The content of a line. -/
def lineSpan? (index : LineIndex) (line : Nat) : Option Span :=
  index.lines[line]?

theorem lineCount_ofText (text : String) :
    (ofText text).lineCount = (Text.split '\n' text.toList).length := by
  simp [ofText, lineCount, Line.ofText]

/-- A line starts behind the lines before it and their newlines. -/
theorem lineSpan?_ofText {text : String} {before after : List (List Char)} {piece : List Char}
    (pieces : Text.split '\n' text.toList = before ++ piece :: after) :
    (ofText text).lineSpan? before.length =
      some ⟨Text.size (before.flatMap (· ++ ['\n'])), Text.size (Text.withoutReturn piece)⟩ := by
  simp [ofText, lineSpan?, Line.ofText, pieces, Line.place_append, Line.span]

/-- The line of an offset. A terminator belongs to the line that it ends. -/
def lineOf? (index : LineIndex) (offset : Nat) : Option Nat :=
  if offset ≤ index.size then
    some ((index.lines.toList.takeWhile fun line => line.start ≤ offset).length - 1)
  else
    none

/-- The position of an offset; inside a terminator it is the end of the line. -/
def positionOf? (index : LineIndex) (offset : Nat) : Option Position := do
  let line ← index.lineOf? offset
  let span ← index.lineSpan? line
  return ⟨line, min (offset - span.start) span.length⟩

/-- The offset of a position, unless its column lies behind the line's content. -/
def offsetOf? (index : LineIndex) (position : Position) : Option Nat := do
  let span ← index.lineSpan? position.line
  if position.column ≤ span.length then some (span.start + position.column) else none

def spanOf? (index : LineIndex) (range : Range) : Option Span := do
  let start ← index.offsetOf? range.start
  let stop ← index.offsetOf? range.stop
  if start ≤ stop then some (Span.ofBounds start stop) else none

def rangeOf? (index : LineIndex) (span : Span) : Option Range := do
  let start ← index.positionOf? span.start
  let stop ← index.positionOf? (span.stopIn index.size)
  return ⟨start, stop⟩

end LineIndex

end CrossRef
