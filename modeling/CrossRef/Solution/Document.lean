import CrossRef.Error
import CrossRef.Text.Lines

/-! Documents: the files of projects, with their texts and version numbers. -/

namespace CrossRef

abbrev ProjectId := String

/-- A document is a file as one project sees it. A file of two projects is two documents. -/
structure DocumentId where
  project : ProjectId
  path : Path
deriving DecidableEq, Repr, Inhabited

namespace DocumentId

/-- What ids have in common that mean the same document, however its path is written. -/
def key (id : DocumentId) : ProjectId × List Component :=
  (id.project, id.path.components)

/-- The same document. -/
def Same (a b : DocumentId) : Prop :=
  a.key = b.key

instance (a b : DocumentId) : Decidable (a.Same b) :=
  inferInstanceAs (Decidable (_ = _))

instance : Ord DocumentId where
  compare a b := (compare a.project b.project).then (compare a.path b.path)

def text (id : DocumentId) : String :=
  id.project ++ ":" ++ id.path.text

end DocumentId

/-- A document with the index of its lines. -/
structure Document where
  id : DocumentId
  text : String
  version : Nat
  lines : LineIndex
deriving DecidableEq, Repr, Inhabited

namespace Document

def ofText (id : DocumentId) (text : String) : Document :=
  ⟨id, text, 0, LineIndex.ofText text⟩

def path (d : Document) : Path :=
  d.id.path

/-- The next version of the document, with another text. -/
def withText (d : Document) (text : String) : Document :=
  { ofText d.id text with version := d.version + 1 }

def spanText? (d : Document) (span : Span) : Option String :=
  span.slice? d.text

end Document

end CrossRef
