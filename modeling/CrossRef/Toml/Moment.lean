import CrossRef.Toml.Number

/-! Dates and times of a TOML text. They are kept in the standard spelling: a `T` between date and time, no
zeros at the end of a fraction, and at most nine of its digits. A table can stand for one too, if the text of
it is at a certain key. -/

namespace CrossRef.Toml
open Text (isDigit digitsValue)

/-- Reads exactly so many digits. -/
def fixedDigits? (count : Nat) (cs : List Char) : Option (Nat × List Char) :=
  let digits := cs.take count
  if digits.length = count ∧ digits.all isDigit then some (digitsValue digits, cs.drop count) else none

/-- Reads exactly so many digits whose value lies in an interval. -/
def bounded? (count low high : Nat) (cs : List Char) : Option (Nat × List Char) := do
  let (value, rest) ← fixedDigits? count cs
  if low ≤ value ∧ value ≤ high then some (value, rest) else none

def expect? (c : Char) (cs : List Char) : Option (List Char) :=
  match cs with
  | [] => none
  | first :: rest => if first = c then some rest else none

/-- A number with zeros before it. -/
def padded (width n : Nat) : String :=
  let digits := (toString n).toList
  String.ofList (List.replicate (width - digits.length) '0' ++ digits)

def daysIn (year month : Nat) : Nat :=
  if month = 2 then
    if year % 4 = 0 ∧ (year % 100 ≠ 0 ∨ year % 400 = 0) then 29 else 28
  else if month = 4 ∨ month = 6 ∨ month = 9 ∨ month = 11 then 30
  else 31

def date? (cs : List Char) : Option (String × List Char) := do
  let (year, rest) ← fixedDigits? 4 cs
  let rest ← expect? '-' rest
  let (month, rest) ← bounded? 2 1 12 rest
  let rest ← expect? '-' rest
  let (day, rest) ← bounded? 2 1 (daysIn year month) rest
  some (padded 4 year ++ "-" ++ padded 2 month ++ "-" ++ padded 2 day, rest)

/-- Reads the digits behind a point, if there is one. -/
def fraction? (cs : List Char) : Option (String × List Char) :=
  match cs with
  | '.' :: rest =>
    let digits := rest.takeWhile isDigit
    let kept := ((digits.take 9).reverse.dropWhile (· == '0')).reverse
    if digits.isEmpty then none
    else some (if kept.isEmpty then "" else "." ++ String.ofList kept, rest.dropWhile isDigit)
  | _ => some ("", cs)

/-- Reads a time of day. The second 60 stands for a leap second. -/
def time? (cs : List Char) : Option (String × List Char) := do
  let (hour, rest) ← bounded? 2 0 23 cs
  let rest ← expect? ':' rest
  let (minute, rest) ← bounded? 2 0 59 rest
  let rest ← expect? ':' rest
  let (second, rest) ← bounded? 2 0 60 rest
  let (fraction, rest) ← fraction? rest
  some (padded 2 hour ++ ":" ++ padded 2 minute ++ ":" ++ padded 2 second ++ fraction, rest)

/-- Reads the distance from universal time, if there is one. -/
def offset? (cs : List Char) : Option (String × List Char) :=
  match cs with
  | [] => some ("", [])
  | c :: rest =>
    if c = 'Z' ∨ c = 'z' then
      some ("Z", rest)
    else if c = '+' ∨ c = '-' then do
      let (hour, rest) ← bounded? 2 0 23 rest
      let rest ← expect? ':' rest
      let (minute, rest) ← bounded? 2 0 59 rest
      let direction := if c = '-' ∧ (hour, minute) ≠ (0, 0) then "-" else "+"
      some (direction ++ padded 2 hour ++ ":" ++ padded 2 minute, rest)
    else
      some ("", cs)

/-- Reads the time behind a date. -/
def timeBehindDate? (cs : List Char) : Option (String × List Char) :=
  match cs with
  | [] => none
  | c :: rest =>
    if c = 'T' ∨ c = 't' ∨ c = ' ' then do
      let (time, rest) ← time? rest
      let (offset, rest) ← offset? rest
      some ("T" ++ time ++ offset, rest)
    else
      none

/-- Reads a date, a time of day, or both. -/
def moment? (cs : List Char) : Option (String × List Char) :=
  match date? cs with
  | some (date, rest) =>
    match timeBehindDate? rest with
    | some (time, rest) => some (date ++ time, rest)
    | none => some (date, rest)
  | none => time? cs

/-- The moment that a text stands for, if it holds nothing else. -/
def Value.quotedMoment? : Value → Option Value
  | .string text =>
    match moment? text.toList with
    | some (spelling, []) => some (.moment spelling)
    | _ => none
  | _ => none

/-- The first key of a table that stands for a moment. -/
def momentKey : String := "$__toml_private_datetime"

mutual

/-- The value with moments in the place of the tables that stand for them. What follows the text of a
moment in its table does not count. -/
def Value.withMoments? : Value → Option Value
  | .array items => (Value.itemsWithMoments? items).map .array
  | .table [] => some (.table [])
  | .table ((key, first) :: rest) =>
    if key = momentKey then first.quotedMoment?
    else do
      let value ← first.withMoments?
      let others ← Table.withMoments? rest
      return .table ((key, value) :: others)
  | other => some other

def Value.itemsWithMoments? : List Value → Option (List Value)
  | [] => some []
  | item :: rest => do
    let value ← item.withMoments?
    let others ← Value.itemsWithMoments? rest
    return value :: others

/-- The table with moments in the place of the tables in it that stand for them. It stands for none
itself. -/
def Table.withMoments? : List (String × Value) → Option Table
  | [] => some []
  | (key, value) :: rest => do
    let value ← value.withMoments?
    let others ← Table.withMoments? rest
    return (key, value) :: others

end

end CrossRef.Toml
