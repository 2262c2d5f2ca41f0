import CrossRef.Text.LetterCase

/-! The lowercase form of a text. It depends on one character at a time, except that a capital sigma at
the end of a word has a form of its own. -/

namespace CrossRef.Text

/-- The lowercase form of a character outside any word. Only the dotted capital i has one of two
characters. -/
def lower (c : Char) : List Char :=
  if c = '\u0130' then
    ['i', '\u0307']
  else
    match lowerings.find? (·.applies c.toNat) with
    | some l => [Char.ofNat (c.toNat - l.first + l.target)]
    | none => [c]

/-- Whether a text goes on with a letter that has a case. -/
def meetsCased (cs : List Char) : Bool :=
  (cs.dropWhile isCaseIgnorable).head?.any isCased

/-- Lowercases a text behind the characters `before`, which are given last one first. -/
def lowercaseBehind : (before : List Char) → List Char → List Char
  | _, [] => []
  | before, c :: rest =>
    let form :=
      if c = '\u03A3' then
        [if meetsCased before && !meetsCased rest then '\u03C2' else '\u03C3']
      else
        lower c
    form ++ lowercaseBehind (c :: before) rest

def lowercase (s : String) : String :=
  String.ofList (lowercaseBehind [] s.toList)

end CrossRef.Text
