import CrossRef.Path
import CrossRef.Text.Blank
import CrossRef.Text.Digits
import CrossRef.Text.Lines

/-! A location is what people write to point into a file: `file:line` or `file:line:column`. Lines and
columns count from one here, columns in bytes. The numbers are taken from the right, so that colons in
the file's name stay there. -/

namespace CrossRef

structure Location where
  file : Path
  line : Nat
  column : Nat
deriving DecidableEq, Repr, Inhabited

inductive Coordinate where
  | line
  | column
deriving DecidableEq, Repr

def Coordinate.name : Coordinate → String
  | line => "line"
  | column => "column"

inductive LocationError where
  | empty
  | noLine
  | noFile
  | negative (which : Coordinate) (text : String)
  | notNumber (which : Coordinate) (text : String)
  | zero (which : Coordinate)
  | lineTooLarge (line count : Nat)
  | columnTooLarge (line column length : Nat)
  | insideCharacter (line column : Nat)
  | fileNotFound (path : Path)
deriving DecidableEq, Repr

namespace LocationError

private def sample : String :=
  "Example: src/main.ml:10:5"

def message : LocationError → String
  | empty => "Location cannot be empty"
  | noLine => "Invalid location format. Expected: file:line[:column]\n" ++ sample
  | noFile => "Location is missing a file path\n" ++ sample
  | negative which text =>
    "Invalid " ++ which.name ++ " number '" ++ text ++ "': negative values not allowed\n" ++ sample
  | notNumber which text =>
    "Invalid " ++ which.name ++ " number '" ++ text ++ "': must be a positive integer"
  | zero which => which.name ++ " must be >= 1 (got 0), locations are 1-indexed"
  | lineTooLarge line count =>
    "Line " ++ toString line ++ " exceeds file length (" ++ toString count ++ " lines)"
  | columnTooLarge line column length =>
    "Column " ++ toString column ++ " exceeds line length (" ++ toString length ++ " bytes) at line " ++
      toString line
  | insideCharacter line column =>
    "Column " ++ toString column ++ " at line " ++ toString line ++
      " falls inside a multi-byte character"
  | fileNotFound path => "File not found: " ++ path.text

end LocationError

namespace Location

/-- Lines and columns stay below this bound. -/
def bound : Nat := Nat.pow 2 32

/-- Digits, or what looks like a negative number. -/
def isNumberLike (cs : List Char) : Bool :=
  !cs.isEmpty && (cs.dropWhile (· == '-')).all Text.isDigit

/-- File, line and column before the numbers are read. The last piece but one is a line only if it looks
like a number. -/
def pieces? (cs : List Char) : Option (List Char × List Char × Option (List Char)) := do
  let (front, last) ← Text.cutLast? ':' cs
  match Text.cutLast? ':' front with
  | some (file, middle) =>
    if isNumberLike middle then some (file, middle, some last) else some (front, last, none)
  | none => some (front, last, none)

def readNumber (which : Coordinate) (cs : List Char) : Except LocationError Nat :=
  if cs.head? = some '-' then
    .error (.negative which (String.ofList cs))
  else
    match Text.natural? bound cs with
    | none => .error (.notNumber which (String.ofList cs))
    | some 0 => .error (.zero which)
    | some (n + 1) => .ok (n + 1)

/-- Reads a location. Without a column the first one is meant. -/
def parse (input : String) : Except LocationError Location := do
  let cs := Text.trim input.toList
  if cs.isEmpty then
    throw .empty
  match pieces? cs with
  | none => throw .noLine
  | some (file, line, column) =>
    if file.isEmpty then
      throw .noFile
    let line ← readNumber .line line
    let column ← match column with
      | some cs => readNumber .column cs
      | none => pure 1
    return ⟨.ofText (String.ofList file), line, column⟩

/-- The location with its column written out. -/
def text (l : Location) : String :=
  l.file.text ++ ":" ++ toString l.line ++ ":" ++ toString l.column

def position (l : Location) : Position :=
  Position.ofDisplay l.line l.column

/-- The offset of the location in the text of its file. -/
def offsetIn (l : Location) (text : String) : Except LocationError Nat :=
  let index := LineIndex.ofText text
  match index.lineSpan? l.position.line with
  | none => .error (.lineTooLarge l.line index.lineCount)
  | some span =>
    match index.offsetOf? l.position with
    | none => .error (.columnTooLarge l.line l.column span.length)
    | some offset =>
      if Text.isBoundary text offset then .ok offset else .error (.insideCharacter l.line l.column)

end Location

end CrossRef
