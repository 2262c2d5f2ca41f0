import CrossRef.Text.Split

/-! File paths. A path keeps its text, but what it names is its list of components: repeated separators,
inner `.` components and a trailing separator make no difference. -/

namespace CrossRef

inductive Component where
  | root
  | current
  | parent
  | name (text : String)
deriving DecidableEq, Hashable, Repr

namespace Component

private def rank : Component → Nat
  | root => 0
  | current => 1
  | parent => 2
  | name _ => 3

instance : Ord Component where
  compare a b := match a, b with
    | name s, name t => compare s t
    | a, b => compare a.rank b.rank

/-- What a piece between separators stands for behind the first one. -/
def ofPiece? (piece : List Char) : Option Component :=
  if piece = [] ∨ piece = ['.'] then none
  else if piece = ['.', '.'] then some .parent
  else some (.name (String.ofList piece))

/-- The components of a path's text. Only at the front of a relative path does `.` count. -/
def ofText (text : String) : List Component :=
  match Text.split '/' text.toList with
  | [] => []
  | first :: rest =>
    let front : List Component :=
      if first = [] then (if rest = [] then [] else [.root])
      else if first = ['.'] then [.current]
      else (ofPiece? first).toList
    front ++ rest.filterMap ofPiece?

end Component

/-- The text of a path, kept together with the components that it stands for. -/
structure Path where
  text : String
  components : List Component
  components_eq : components = Component.ofText text

namespace Path

def ofText (text : String) : Path :=
  ⟨text, Component.ofText text, rfl⟩

theorem ext_text {p q : Path} (same : p.text = q.text) : p = q := by
  cases p
  cases q
  simp_all

instance : DecidableEq Path := fun p q =>
  decidable_of_iff (p.text = q.text) ⟨ext_text, congrArg Path.text⟩

instance : Repr Path where
  reprPrec p := reprPrec p.text

instance : Inhabited Path where
  default := ofText ""

/-- Two spellings of the same path. -/
def Same (p q : Path) : Prop :=
  p.components = q.components

instance (p q : Path) : Decidable (p.Same q) :=
  inferInstanceAs (Decidable (_ = _))

theorem Same.refl (p : Path) : p.Same p :=
  rfl

theorem Same.symm {p q : Path} (same : p.Same q) : q.Same p :=
  Eq.symm same

theorem Same.trans {p q r : Path} (first : p.Same q) (second : q.Same r) : p.Same r :=
  Eq.trans first second

/-- Paths are ordered by their components, not by their text. -/
instance : Ord Path where
  compare p q := compare p.components q.components

def isAbsolute (p : Path) : Bool :=
  p.components.head? == some .root

end Path

end CrossRef
