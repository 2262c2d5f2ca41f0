import CrossRef.Path
import CrossRef.Text.Span

/-! Symbols, the places where they are declared, and their uses. -/

namespace CrossRef

/-- A range of a file. -/
structure Place where
  file : Path
  range : Range
deriving DecidableEq, Repr, Inhabited

namespace Place

/-- What places have in common that are the same range of the same file, however its path is written. -/
def key (p : Place) : List Component × Range :=
  (p.file.components, p.range)

instance : Ord Place where
  compare p q := (compare p.file q.file).then (compare p.range q.range)

end Place

/-- What makes a symbol the same one in two checks: its file, the declaration that owns it, its name, and
how many bindings of that name the owner has before it. Offsets play no part, so text inserted above a
declaration does not change it. -/
structure SymbolId where
  text : String
deriving DecidableEq, Repr, Inhabited

inductive SymbolKind where
  | value
  | function
  | parameter
  | type
deriving DecidableEq, Repr, Inhabited

def SymbolKind.name : SymbolKind → String
  | value => "value"
  | function => "function"
  | parameter => "parameter"
  | type => "type"

inductive Access where
  | everywhere
  | ownProject
  | ownFile
deriving DecidableEq, Repr, Inhabited

def Access.name : Access → String
  | everywhere => "public"
  | ownProject => "internal"
  | ownFile => "private"

structure Symbol where
  id : SymbolId
  name : String
  kind : SymbolKind
  access : Access
  /-- Bound inside a declaration rather than by it. -/
  isLocal : Bool
  declaration : Option Place
deriving DecidableEq, Repr, Inhabited

/-- Nothing outside the declaring file can see the symbol. -/
def Symbol.isPrivateToFile (s : Symbol) : Bool :=
  s.isLocal || s.access == .ownFile

inductive Occurrence where
  | definition
  | use
  | inType
  | inAttribute
  | inPattern
deriving DecidableEq, Repr, Inhabited

def Occurrence.name : Occurrence → String
  | definition => "definition"
  | use => "use"
  | inType => "in_type"
  | inAttribute => "in_attribute"
  | inPattern => "in_pattern"

structure Use where
  symbol : Symbol
  place : Place
  kind : Occurrence
deriving DecidableEq, Repr, Inhabited

/-- The uses of one symbol. Symbols are told apart by their identity alone. -/
def usesOf (symbol : Symbol) (uses : List Use) : List Use :=
  uses.filter (·.symbol.id = symbol.id)

end CrossRef
