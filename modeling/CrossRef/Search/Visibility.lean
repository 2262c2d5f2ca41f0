import CrossRef.Collect.Distinct
import CrossRef.Symbol
import CrossRef.Solution.Dependents

/-! From where a symbol can be referred to, and which projects have to be searched for it. -/

namespace CrossRef

/-- Where the uses of a symbol can be. -/
inductive Visibility where
  | currentDocument
  /-- In the projects that list the declaring file and, unless the symbol is internal, in those that
  depend on them. -/
  | projects (ids : List ProjectId) (isInternal : Bool)
deriving DecidableEq, Repr, Inhabited

/-- The visibility of a symbol as seen from a document; none if it is declared outside the solution. -/
def Symbol.visibility? (symbol : Symbol) (document : Document) (solution : Solution) :
    Option Visibility := do
  let declared ← symbol.declaration
  if symbol.isPrivateToFile ∧ declared.file.Same document.path then
    some .currentDocument
  else
    match solution.projectsContaining declared.file with
    | [] => none
    | projects => some (.projects projects (symbol.access == .ownProject))

/-- The projects to search, each of them once. -/
def Visibility.searchedProjects (visibility : Visibility) (solution : Solution) : List ProjectId :=
  match visibility with
  | .currentDocument => []
  | .projects ids isInternal =>
    distinctBy id (ids.flatMap fun id =>
      id :: if isInternal then [] else solution.dependents id)

end CrossRef
