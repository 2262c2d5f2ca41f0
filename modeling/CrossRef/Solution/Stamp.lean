import CrossRef.Solution.Document

/-! Stamps tell whether a project is still the one that was checked. All that a check depends on is written
down as one sequence of bytes, and two projects have one stamp if the same sequence is written for them. -/

namespace CrossRef

inductive Stamp where
  /-- A number chosen by the caller. -/
  | given (number : Nat)
  | written (bytes : List Nat)
  /-- The stamp of a project together with that of one it refers to. -/
  | join (own referenced : Stamp)
deriving Repr, Inhabited

namespace Stamp

/-- Whether two stamps are the same. -/
def isSame : Stamp → Stamp → Bool
  | given a, given b => a == b
  | written a, written b => a == b
  | join a b, join c d => a.isSame c && b.isSame d
  | _, _ => false

theorem isSame_iff (a b : Stamp) : a.isSame b = true ↔ a = b := by
  induction a generalizing b with
  | given number => cases b <;> simp [isSame]
  | written bytes => cases b <;> simp [isSame]
  | join own referenced ihOwn ihReferenced => cases b <;> simp [isSame, ihOwn, ihReferenced]

instance : DecidableEq Stamp := fun a b =>
  decidable_of_iff (a.isSame b = true) (isSame_iff a b)

/-- The bytes of a text. -/
def ofText (text : String) : List Nat :=
  text.toUTF8.toList.map UInt8.toNat

/-- A text with its end marked by a byte that no text has. -/
def ofEndedText (text : String) : List Nat :=
  ofText text ++ [255]

/-- A number as eight digits to the base 256, the lowest one first. The last digit has no bound, so that
different numbers are never written alike. -/
def ofNumber (n : Nat) : List Nat :=
  (List.range 7).map (fun i => n / Nat.pow 256 i % 256) ++ [n / Nat.pow 256 7]

/-- Texts behind their number. -/
def ofTexts (texts : List String) : List Nat :=
  ofNumber texts.length ++ texts.flatMap ofEndedText

/-- The text of a component. The root has none. -/
def componentText : Component → String
  | .root => ""
  | .current => "."
  | .parent => ".."
  | .name text => text

/-- A word that depends on where the texts of components meet. -/
def seams (texts : List String) : UInt64 :=
  (texts.filter (· ≠ "")).foldl (fun word text =>
    let sum := word + text.utf8ByteSize.toUInt64
    (sum >>> 2) ||| (sum <<< 62)) 0

/-- A path is written without separators; the word behind it tells where they were. -/
def ofPath (path : Path) : List Nat :=
  let texts := path.components.map componentText
  texts.flatMap ofText ++ ofNumber (seams texts).toNat

/-- Everything in a document that a check depends on. -/
def ofDocument (document : Document) : List Nat :=
  ofPath document.path ++ ofNumber document.version ++ ofEndedText document.text

end Stamp

end CrossRef
