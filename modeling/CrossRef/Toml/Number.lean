import CrossRef.Text.Digits
import CrossRef.Toml.Quoted
import CrossRef.Toml.Value

/-! Numbers of a TOML text. -/

namespace CrossRef.Toml
open Text (isDigit digitsValue)

/-- Digits with single underscores between them; gives the digits alone. -/
def spacedDigits? (isDigit : Char → Bool) (cs : List Char) : Option (List Char × List Char) :=
  let run := cs.takeWhile fun c => isDigit c || c == '_'
  let digits := run.filter (· ≠ '_')
  let spaced := (run.zip run.tail).all fun (a, b) => isDigit a || isDigit b
  if run.head?.any isDigit && run.getLast?.any isDigit && spaced then
    some (digits, cs.dropWhile fun c => isDigit c || c == '_')
  else
    none

/-- Takes a sign off the front; a minus sign gives `true`. -/
def sign (cs : List Char) : Bool × List Char :=
  match cs with
  | '+' :: rest => (false, rest)
  | '-' :: rest => (true, rest)
  | _ => (false, cs)

/-- Decimal digits without a needless zero at the front. -/
def decimal? (cs : List Char) : Option (List Char × List Char) := do
  let (digits, rest) ← spacedDigits? isDigit cs
  if digits.head? = some '0' ∧ digits.length > 1 then none else some (digits, rest)

/-- Whether a number fits into 64 bits, one of them for its sign. -/
def fitsInteger (i : Int) : Bool :=
  -(Nat.pow 2 63 : Int) ≤ i && i < Nat.pow 2 63

def isDigitOf (radix : Nat) (c : Char) : Bool :=
  (hexDigit? c).any (· < radix)

/-- Reads the digits of a number to one of the other bases. -/
def based? (radix : Nat) (cs : List Char) : Option (Int × List Char) := do
  let (digits, rest) ← spacedDigits? (isDigitOf radix) cs
  let value := digits.foldl (fun value c => radix * value + (hexDigit? c).getD 0) 0
  some (value, rest)

/-- Reads an integer. Only decimal ones may have a sign. -/
def integer? (cs : List Char) : Option (Value × List Char) := do
  let (value, rest) ← match cs with
    | '0' :: 'x' :: rest => based? 16 rest
    | '0' :: 'o' :: rest => based? 8 rest
    | '0' :: 'b' :: rest => based? 2 rest
    | _ => do
      let (isNegative, rest) := sign cs
      let (digits, rest) ← decimal? rest
      let magnitude : Int := digitsValue digits
      some (if isNegative then -magnitude else magnitude, rest)
  if fitsInteger value then some (.integer value, rest) else none

/-- Reads an exponent, if there is one: its value and what is left. -/
def exponent? (cs : List Char) : Option (Int × List Char) :=
  match cs with
  | [] => none
  | c :: rest =>
    if c = 'e' ∨ c = 'E' then do
      let (isNegative, rest) := sign rest
      let (digits, rest) ← spacedDigits? isDigit rest
      let magnitude : Int := digitsValue digits
      some (if isNegative then -magnitude else magnitude, rest)
    else
      none

/-- Whether `digits`, shifted by a power of ten, is rounded to infinity: it reaches half a step beyond the
largest float. The number of digits settles all but the closest cases without computing the power. -/
def isInfinite (digits : List Char) (exponent : Int) : Bool :=
  let limit := Nat.pow 2 1024 - Nat.pow 2 970
  let significant := digits.dropWhile (· == '0')
  let order := significant.length + exponent
  if significant.isEmpty || order < 309 then
    false
  else if order > 310 then
    true
  else if exponent ≥ 0 then
    limit ≤ digitsValue significant * Nat.pow 10 exponent.toNat
  else
    limit * Nat.pow 10 (-exponent).toNat ≤ digitsValue significant

/-- The part of a text before what is left of it. -/
def taken (cs rest : List Char) : String :=
  String.ofList (cs.take (cs.length - rest.length))

/-- Reads one of the words for what is no number of its own. -/
def special? (cs : List Char) : Option (Value × List Char) :=
  let (_, rest) := sign cs
  if rest.take 3 = ['i', 'n', 'f'] ∨ rest.take 3 = ['n', 'a', 'n'] then
    some (.float (taken cs (rest.drop 3)), rest.drop 3)
  else
    none

/-- Reads a float: digits with a fraction, an exponent or both. One that would be positive infinity is
refused. -/
def float? (cs : List Char) : Option (Value × List Char) := do
  let (isNegative, rest) := sign cs
  let (whole, rest) ← decimal? rest
  let (fraction, exponent, rest) ← match rest with
    | '.' :: rest => do
      let (fraction, rest) ← spacedDigits? isDigit rest
      let (exponent, rest) := (exponent? rest).getD (0, rest)
      some (fraction, exponent, rest)
    | _ => do
      let (exponent, rest) ← exponent? rest
      some ([], exponent, rest)
  if !isNegative && isInfinite (whole ++ fraction) (exponent - fraction.length) then none
  else some (.float (taken cs rest), rest)

end CrossRef.Toml
