import CrossRef.Path

/-! Joining paths, taking the directory of a path, and writing a path as it is seen from a directory. All
of it keeps the spelling of the parts that are kept. -/

namespace CrossRef.Path

/-- Pieces that name nothing when they stand behind a separator. -/
def isIdle (piece : List Char) : Bool :=
  (Component.ofPiece? piece).isNone

/-- Drops the idle pieces at the end. -/
def withoutIdleEnd (pieces : List (List Char)) : List (List Char) :=
  (pieces.reverse.dropWhile isIdle).reverse

/-- Writes pieces with separators between them. -/
def ofPieces (pieces : List (List Char)) : Path :=
  .ofText (String.ofList (List.intercalate ['/'] pieces))

/-- A front piece, which is empty in an absolute path, with the pieces behind it. -/
def ofFront (front : List Char) (rest : List (List Char)) : Path :=
  if front = [] ∧ rest = [] then .ofText "/" else ofPieces (front :: rest)

/-- A path as it is meant inside a directory; an absolute path stands for itself. -/
def join (base p : Path) : Path :=
  if p.isAbsolute then p
  else if base.text = "" ∨ base.text.toList.getLast? = some '/' then .ofText (base.text ++ p.text)
  else .ofText (base.text ++ "/" ++ p.text)

/-- The path that names lead to from a directory. -/
def append (base : Path) (names : List String) : Path :=
  if names.isEmpty then base else base.join (.ofText ("/".intercalate names))

/-- The path without its last component. -/
def parent? (p : Path) : Option Path :=
  match Text.split '/' p.text.toList with
  | [] => none
  | front :: rest =>
    match withoutIdleEnd rest with
    | [] => if front = [] then none else some (.ofText "")
    | first :: more => some (ofFront front (withoutIdleEnd (first :: more).dropLast))

/-- Drops pieces up to and including the given number of components. -/
def dropComponents : Nat → List (List Char) → List (List Char)
  | 0, pieces => pieces
  | _, [] => []
  | n + 1, piece :: rest =>
    if isIdle piece then dropComponents (n + 1) rest else dropComponents n rest

/-- What is left of a path behind its first components, without idle pieces at the ends. -/
def behind (count : Nat) (p : Path) : Path :=
  match Text.split '/' p.text.toList with
  | [] => p
  | front :: rest =>
    match count with
    | 0 => if rest = [] then p else ofFront front (withoutIdleEnd rest)
    | n + 1 => ofPieces (withoutIdleEnd ((dropComponents n rest).dropWhile isIdle))

/-- The path as seen from a directory that its components start with. -/
def relativeTo? (base p : Path) : Option Path :=
  if base.components.isPrefixOf p.components then some (p.behind base.components.length) else none

/-- The last component, if it is a name. -/
def name? (p : Path) : Option String :=
  match p.components.getLast? with
  | some (.name text) => some text
  | _ => none

/-- What stands behind the last dot of the last name, unless the name starts with that dot. -/
def extension? (p : Path) : Option String := do
  let name ← p.name?
  let (stem, extension) ← Text.cutLast? '.' name.toList
  if stem.isEmpty then none else some (String.ofList extension)

end CrossRef.Path
