import CrossRef.Solution.Project

/-! A solution: projects that own documents and refer to each other. Nothing is changed in place; an edit
gives a new solution, and version numbers tell which documents differ. -/

namespace CrossRef

/-- For each path the documents that it backs. -/
abbrev PathIndex := List (Path × List DocumentId)

namespace PathIndex

def get (index : PathIndex) (path : Path) : List DocumentId :=
  ((index.find? (·.1.Same path)).map (·.2)).getD []

/-- Adds a document behind the ones that its path already backs. -/
def insert (index : PathIndex) (id : DocumentId) : PathIndex :=
  match index with
  | [] => [(id.path, [id])]
  | (path, ids) :: rest =>
    if path.Same id.path then (path, ids ++ [id]) :: rest else (path, ids) :: PathIndex.insert rest id

/-- The index of some projects, in their order and the order of their documents. -/
def ofProjects (projects : List Project) : PathIndex :=
  (projects.flatMap (·.documents)).foldl (fun index document => index.insert document.id) []

end PathIndex

structure Solution where
  /-- The projects in the order of their ids. -/
  projects : List Project
  index : PathIndex
  version : Nat
deriving DecidableEq, Repr, Inhabited

namespace Solution

/-- Puts a project in its place, unless its id is taken. -/
def insertProject? (project : Project) : List Project → Option (List Project)
  | [] => some [project]
  | first :: rest =>
    match compare project.id first.id with
    | .lt => some (project :: first :: rest)
    | .eq => none
    | .gt => (insertProject? project rest).map (first :: ·)

/-- The first reference, in project order, that names no project. -/
def unknownReference? (projects : List Project) : Option (ProjectId × ProjectId) :=
  projects.findSome? fun project =>
    (project.configuration.references.find? fun reference =>
      !projects.any (·.id == reference)).map fun reference => (project.id, reference)

/-- Builds a solution. Two projects with one id are reported before unknown references. -/
def build (projects : List Project) : Except SolutionError Solution := do
  let sorted ← projects.foldlM (fun sorted project =>
    match insertProject? project sorted with
    | some sorted => .ok sorted
    | none => .error (.duplicateProject project.id)) []
  match unknownReference? sorted with
  | some (project, reference) => .error (.unknownReference project reference)
  | none => .ok ⟨sorted, PathIndex.ofProjects sorted, 0⟩

def project? (s : Solution) (id : ProjectId) : Option Project :=
  s.projects.find? (·.id == id)

def document? (s : Solution) (id : DocumentId) : Option Document :=
  (s.project? id.project).bind (·.document? id.path)

/-- The documents of all projects, in project order. -/
def documents (s : Solution) : List Document :=
  s.projects.flatMap (·.documents)

/-- The documents that a path backs, in project order. -/
def documentsOf (s : Solution) (path : Path) : List DocumentId :=
  s.index.get path

/-- The projects that list a path, once for each time they do. -/
def projectsContaining (s : Solution) (path : Path) : List ProjectId :=
  (s.documentsOf path).map (·.project)

/-- Changes the first document that an id names. -/
def editFirst (id : DocumentId) (text : String) : List Document → Option (List Document)
  | [] => none
  | document :: rest =>
    if document.id.Same id then some (document.withText text :: rest)
    else (editFirst id text rest).map (document :: ·)

/-- Changes the document that an id names, in the project that owns it. An unknown project is reported as
such, and not as an unknown document. -/
def editProjects (id : DocumentId) (text : String) : List Project → Except SolutionError (List Project)
  | [] => .error (.projectNotFound id.project)
  | project :: rest =>
    if project.id = id.project then
      match editFirst id text project.documents with
      | some documents => .ok (project.withDocuments documents :: rest)
      | none => .error (.documentNotFound id.project id.path)
    else
      (editProjects id text rest).map (project :: ·)

/-- The solution with another text for one document. -/
def withText (s : Solution) (id : DocumentId) (text : String) : Except SolutionError Solution := do
  let projects ← editProjects id text s.projects
  return { s with projects, version := s.version + 1 }

/-- The documents whose version is not the one that they have in an earlier solution. -/
def changedSince (s base : Solution) : List DocumentId :=
  (s.documents.filter fun document =>
    (base.document? document.id).all (·.version != document.version)).map (·.id)

end Solution

end CrossRef
