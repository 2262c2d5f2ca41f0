/-! Identifiers of the language: plain words, keywords, and names in double backticks that may hold any
characters. -/

namespace CrossRef.Syntax

/-- The words that cannot be plain identifiers. -/
def keywords : List String :=
  ["do", "else", "false", "fun", "if", "in", "internal", "let", "match", "module", "mutable", "not",
    "open", "private", "rec", "then", "true", "type", "with"]

def isKeyword (word : String) : Bool :=
  keywords.contains word

def isWordStart (c : Char) : Bool :=
  c.isAlpha || c == '_'

def isWordChar (c : Char) : Bool :=
  c.isAlphanum || c == '_' || c == '\x27'

/-- The double backtick that opens and closes a quoted name. -/
def fence : List Char :=
  ['\x60', '\x60']

/-- What stands between an opening fence and a closing one, if the name begins and ends with them. -/
def fenced? : List Char → Option (List Char)
  | '\x60' :: '\x60' :: cs => if fence.isSuffixOf cs then some (cs.take (cs.length - 2)) else none
  | _ => none

/-- The name without its fences; an empty quoted name keeps them. -/
def unquote (name : String) : String :=
  match fenced? name.toList with
  | some inner => if inner.isEmpty then name else String.ofList inner
  | none => name

/-- The number of characters before the next fence. -/
def charsToFence? : List Char → Option Nat
  | '\x60' :: '\x60' :: _ => some 0
  | _ :: cs => (charsToFence? cs).map (· + 1)
  | [] => none

/-- Whether a name can take the place of an identifier. -/
def isIdentifier (name : String) : Bool :=
  match fenced? name.toList with
  | some inner =>
    !inner.isEmpty && (charsToFence? inner).isNone &&
      inner.all fun c => c != '\n' && c != '\r' && c != '\t'
  | none =>
    match name.toList with
    | [] => false
    | c :: cs => isWordStart c && cs.all isWordChar && !isKeyword name

end CrossRef.Syntax
