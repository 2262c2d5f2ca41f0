import CrossRef.Text.Lines
import CrossRef.Syntax.Identifier

/-! Tokens, and how one line is cut into them. A token is found from its first character and what
follows it, so the tokens of a line together with the gaps between them give the line back. -/

namespace CrossRef.Syntax

inductive TokenKind where
  | word
  | quoted
  | keyword
  | number
  /-- A string literal; `closed` tells whether its closing quote was found on the line. -/
  | literal (closed : Bool)
  | comment
  | dot
  | punct
deriving DecidableEq, Repr, Inhabited

/-- A token and its place. As in positions, line and column have no bound, and are the same in words of 32 bits as
long as texts are shorter than 2^32 bytes. -/
structure Token where
  kind : TokenKind
  /-- The bytes of the token in the whole text. -/
  span : Span
  line : Nat
  column : Nat
  text : String
deriving DecidableEq, Repr, Inhabited

namespace Token

def isIdentifier (t : Token) : Bool :=
  t.kind == .word || t.kind == .quoted

def isKeyword (t : Token) (word : String) : Bool :=
  t.kind == .keyword && t.text == word

def isPunct (t : Token) (sign : String) : Bool :=
  t.kind == .punct && t.text == sign

/-- The text without the fences of a quoted name. -/
def name (t : Token) : String :=
  unquote t.text

/-- The column behind the token. -/
def endColumn (t : Token) : Nat :=
  t.column + t.span.length

def range (t : Token) : Range :=
  Range.onLine t.line t.column t.endColumn

/-- Whether a token starts where this one stops. -/
def touches (t next : Token) : Bool :=
  t.span.stop == next.span.start

end Token

/-- The characters that separate tokens. -/
def isGap (c : Char) : Bool :=
  c == ' ' || c == '\t' || c == '\n' || c == '\x0c' || c == '\r'

/-- The rest of a string literal: its length, and whether it is closed. A backslash hides the character
behind it. -/
def literalTail : List Char → Nat × Bool
  | [] => (0, false)
  | ['\x5c'] => (1, false)
  | '\x5c' :: _ :: cs => (literalTail cs).map (· + 2) id
  | c :: cs => if c = '\x22' then (1, true) else (literalTail cs).map (· + 1) id

/-- The length of the rest of a number. A point belongs to it if a digit follows. -/
def numberTail : List Char → Nat
  | [] => 0
  | c :: cs =>
    if c.isAlphanum || c == '_' || (c == '.' && cs.head?.any Char.isDigit) then numberTail cs + 1 else 0

/-- The kind of the token that starts with a character, and how many of the characters behind it belong
to it too. -/
def lexeme (c : Char) (rest : List Char) : TokenKind × Nat :=
  if c = '/' ∧ rest.head? = some '/' then
    (.comment, rest.length)
  else if c = '\x22' then
    let (length, closed) := literalTail rest
    (.literal closed, length)
  else if c = '\x60' ∧ rest.head? = some '\x60' then
    match charsToFence? rest.tail with
    | some length => (.quoted, length + 3)
    | none => (.punct, 1)
  else if isWordStart c then
    let length := (rest.takeWhile isWordChar).length
    (if isKeyword (String.ofList (c :: rest.take length)) then .keyword else .word, length)
  else if c.isDigit then
    (.number, numberTail rest)
  else if c = '.' then
    (.dot, 0)
  else
    (.punct, 0)

/-- The tokens of a line that starts at the offset `start`. The first `skip` characters belong to a token
that was found before them. -/
def lexLine (line start : Nat) : (skip column : Nat) → List Char → List Token
  | _, _, [] => []
  | skip + 1, column, c :: cs => lexLine line start skip (column + c.utf8Size) cs
  | 0, column, c :: cs =>
    if isGap c then
      lexLine line start 0 (column + c.utf8Size) cs
    else
      let (kind, more) := lexeme c cs
      let text := c :: cs.take more
      ⟨kind, ⟨start + column, Text.size text⟩, line, column, String.ofList text⟩ ::
        lexLine line start more (column + c.utf8Size) cs

end CrossRef.Syntax
