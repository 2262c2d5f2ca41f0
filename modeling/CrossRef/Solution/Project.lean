import CrossRef.Solution.Stamp

/-! Projects: documents that are compiled together, and the projects whose names they see. -/

namespace CrossRef

/-- How a project is compiled. -/
structure Configuration where
  /-- The names that its conditional regions may test. -/
  defines : List String
  /-- The projects whose public names it sees. -/
  references : List ProjectId
deriving DecidableEq, Repr, Inhabited

/-- The stamp of a project alone. -/
def Stamp.ofProject (id : ProjectId) (configuration : Configuration) (documents : List Document) : Stamp :=
  .written (ofEndedText id ++ ofTexts configuration.defines ++ ofTexts configuration.references ++
    documents.flatMap ofDocument)

/-- A project is kept together with its stamp, because the options of many projects ask for it. -/
structure Project where
  id : ProjectId
  configuration : Configuration
  /-- The documents in the order in which they are compiled. -/
  documents : List Document
  stamp : Stamp
  stamp_eq : stamp = .ofProject id configuration documents

namespace Project

def ofDocuments (id : ProjectId) (configuration : Configuration) (documents : List Document) : Project :=
  ⟨id, configuration, documents, .ofProject id configuration documents, rfl⟩

theorem ext_documents {p q : Project} (id : p.id = q.id) (configuration : p.configuration = q.configuration)
    (documents : p.documents = q.documents) : p = q := by
  cases p
  cases q
  simp_all

instance : DecidableEq Project := fun p q =>
  decidable_of_iff (p.id = q.id ∧ p.configuration = q.configuration ∧ p.documents = q.documents)
    ⟨fun ⟨id, configuration, documents⟩ => ext_documents id configuration documents, fun same => by simp [same]⟩

instance : Repr Project where
  reprPrec p := reprPrec (p.id, p.configuration, p.documents)

instance : Inhabited Project where
  default := ofDocuments default default default

/-- The project with other documents. -/
def withDocuments (p : Project) (documents : List Document) : Project :=
  ofDocuments p.id p.configuration documents

def ofFiles (id : ProjectId) (configuration : Configuration) (files : List (Path × String)) : Project :=
  ofDocuments id configuration (files.map fun (path, text) => Document.ofText ⟨id, path⟩ text)

def document? (p : Project) (path : Path) : Option Document :=
  p.documents.find? (·.path.Same path)

end Project

end CrossRef
