import CrossRef.Symbol
import CrossRef.Syntax.Lexer

/-! The role of each token in a file: an identifier binds a name, refers to one, or only qualifies the
name behind it. The tokens are read once, from left to right, with the token before and those behind in
view; comments have been taken out. -/

namespace CrossRef.Check
open Syntax

inductive Role where
  | binder (kind : SymbolKind) (access : Access) (isLocal : Bool)
  | reference (kind : Occurrence)
  /-- The name of a module in front of a point. -/
  | qualifier
  | other
deriving DecidableEq, Repr, Inhabited

/-- What the reader is in the middle of. -/
inductive Mode where
  | plain
  /-- Behind `let` or `type`, before the name. -/
  | header (isType isTop : Bool) (access : Access)
  /-- Behind the name of a `let`, on its line and before `=`. -/
  | parameters (line : Nat)
  /-- Behind `fun`, before the arrow. -/
  | lambda
deriving DecidableEq, Repr, Inhabited

structure ReaderState where
  inAttribute : Bool
  mode : Mode
deriving DecidableEq, Repr, Inhabited

/-- Whether a sign and the one right behind it are the two given ones. -/
def isPair (first second : String) (t : Token) (rest : List Token) : Bool :=
  t.isPunct first && rest.head?.any fun next => next.isPunct second && t.touches next

/-- The role of an identifier that binds nothing. -/
def referenceRole (inAttribute : Bool) (previous : Option Token) (t : Token) (rest : List Token) : Role :=
  if rest.head?.any fun next => next.kind == .dot && t.touches next then
    .qualifier
  else if inAttribute then
    .reference .inAttribute
  else if previous.any (·.isPunct ":") then
    .reference .inType
  else if previous.any (·.isPunct "|") then
    .reference .inPattern
  else
    .reference .use

/-- Whether parameters follow on a line: identifiers before `=` that are not annotations. -/
def hasParameter (line : Nat) : (previous : Token) → List Token → Bool
  | _, [] => false
  | previous, t :: ts =>
    if t.line ≠ line ∨ t.isPunct "=" then false
    else (t.isIdentifier && !previous.isPunct ":") || hasParameter line t ts

/-- Reads a token outside declarations and `fun`. -/
def readPlain (inAttribute : Bool) (previous : Option Token) (t : Token) (rest : List Token) :
    Role × ReaderState :=
  if t.isKeyword "let" || t.isKeyword "type" then
    (.other, ⟨inAttribute, .header (t.isKeyword "type") (t.column == 0) .everywhere⟩)
  else if t.isKeyword "fun" then
    (.other, ⟨inAttribute, .lambda⟩)
  else if isPair "[" "<" t rest then
    (.other, ⟨true, .plain⟩)
  else if isPair ">" "]" t rest then
    (.other, ⟨false, .plain⟩)
  else if t.isIdentifier then
    (referenceRole inAttribute previous t rest, ⟨inAttribute, .plain⟩)
  else
    (.other, ⟨inAttribute, .plain⟩)

/-- Reads an identifier among parameters. Behind a colon it is an annotation. -/
def parameterRole (previous : Option Token) (t : Token) (rest : List Token) : Role :=
  if !t.isIdentifier then .other
  else if previous.any (·.isPunct ":") then referenceRole false previous t rest
  else .binder .parameter .everywhere true

/-- Reads one token: its role, and how the reading goes on. -/
def read (state : ReaderState) (previous : Option Token) (t : Token) (rest : List Token) :
    Role × ReaderState :=
  match state.mode with
  | .plain => readPlain state.inAttribute previous t rest
  | .header isType isTop access =>
    if t.isKeyword "rec" || t.isKeyword "mutable" then
      (.other, state)
    else if t.isKeyword "private" then
      (.other, { state with mode := .header isType isTop .ownFile })
    else if t.isKeyword "internal" then
      (.other, { state with mode := .header isType isTop .ownProject })
    else if t.isIdentifier then
      if isType then
        (.binder .type access !isTop, { state with mode := .plain })
      else
        let kind := if hasParameter t.line t rest then .function else .value
        (.binder kind access !isTop, { state with mode := .parameters t.line })
    else
      readPlain state.inAttribute previous t rest
  | .parameters line =>
    if t.line ≠ line ∨ t.isPunct "=" then readPlain state.inAttribute previous t rest
    else (parameterRole previous t rest, state)
  | .lambda =>
    if isPair "-" ">" t rest then readPlain state.inAttribute previous t rest
    else (parameterRole previous t rest, state)

/-- The roles of tokens, read from a state and behind a token. -/
def rolesFrom : ReaderState → (previous : Option Token) → List Token → List (Token × Role)
  | _, _, [] => []
  | state, previous, t :: ts =>
    let (role, next) := read state previous t ts
    (t, role) :: rolesFrom next (some t) ts

/-- The role of each token that is not a comment. -/
def roles (tokens : List Token) : List (Token × Role) :=
  rolesFrom ⟨false, .plain⟩ none (tokens.filter (·.kind != .comment))

end CrossRef.Check
