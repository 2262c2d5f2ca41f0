import CrossRef.Check.Checker
import CrossRef.Search.Grouping
import CrossRef.Syntax.Candidate

/-! Finding the symbol at a place of a document, and its uses. -/

namespace CrossRef
open Syntax

/-- What the searches depend on: a checker, the options that projects have, and how a cursor is read. A
project without options counts as absent, not as a fault. -/
structure Service (m : Type → Type) where
  checker : Checker m
  options? : Solution → ProjectId → Option Options
  lookup : Lookup

/-- A document that has to be there. -/
def Solution.find (s : Solution) (id : DocumentId) : Except Error Document :=
  match s.document? id with
  | some document => .ok document
  | none => .error (.solution (.documentNotFound id.project id.path))

/-- A use that a cursor stands for, with all uses of the checked file. -/
structure ResolvedUse where
  candidate : Candidate
  use : Use
  fileUses : List Use
  project : ProjectId
deriving DecidableEq, Repr

namespace Service

variable {m : Type → Type} [Monad m] (service : Service m)

/-- The identifier at an offset of a document. -/
def candidateAt (solution : Solution) (document : Document) (offset : Nat) :
    Except Error (Option Candidate) :=
  if Text.isBoundary document.text offset then
    .ok do
      let options ← service.options? solution document.id.project
      Syntax.candidateAt document.text offset options.defines service.lookup
  else
    .error (.solution (.invalidPosition offset document.text.utf8ByteSize))

/-- Checks a document as it stands. There are no uses without options or if the file is not checked. -/
def checkDocument (solution : Solution) (document : Document) :
    ExceptT Error m (Option (List Use)) := do
  match service.options? solution document.id.project with
  | none => return none
  | some options =>
    match ← service.checker.file document.path document.version document.text options with
    | .error e => throw (.check e)
    | .ok check => return check.uses

/-- The symbol use at an offset of a document, if there is one. -/
def resolveAt (solution : Solution) (document : Document) (offset : Nat) :
    ExceptT Error m (Option ResolvedUse) := do
  match ← service.candidateAt solution document offset with
  | none => return none
  | some candidate =>
    match ← service.checkDocument solution document with
    | none => return none
    | some fileUses =>
      return (useAt? fileUses candidate.line candidate.endColumn candidate.lineText
        candidate.island).map fun use => ⟨candidate, use, fileUses, document.id.project⟩

/-- The uses of a symbol in one project. -/
def usesInProject (symbol : Symbol) (solution : Solution) (project : ProjectId) :
    m (Except Error (List Use)) := do
  match service.options? solution project with
  | none => return .ok []
  | some options =>
    match ← service.checker.project options with
    | .error e => return .error (.check e)
    | .ok check => return .ok (check.usesOf symbol)

end Service

/-- Puts numbered results, in the order in which they were completed, back into the order of their
numbers. The first failure to be completed is the failure of the whole. -/
def gather (completed : List (Nat × Except Error (List Use))) : Except Error (List Use) := do
  let found ← completed.mapM fun (number, result) => result.map fun uses => (number, uses)
  return (found.mergeSort fun a b => a.1 ≤ b.1).flatMap (·.2)

namespace Service

variable {m : Type → Type} [Monad m] (service : Service m)

/-- Searches numbered projects one after another. The first failure ends the search, so what is behind it is
not checked. -/
def searchEach (symbol : Symbol) (solution : Solution) :
    List (ProjectId × Nat) → m (List (Nat × Except Error (List Use)))
  | [] => return []
  | (project, number) :: rest => do
    match ← service.usesInProject symbol solution project with
    | .error e => return [(number, .error e)]
    | .ok uses => return (number, .ok uses) :: (← searchEach symbol solution rest)

/-- The uses of a symbol in some projects, in their order. -/
def usesInProjects (symbol : Symbol) (projects : List ProjectId) (solution : Solution)
    (cancelled : Bool) : ExceptT Error m (List Use) := do
  if cancelled then
    throw .cancelled
  gather (← service.searchEach symbol solution projects.zipIdx)

/-- The uses of a symbol wherever it is visible, by document. `inFile` gives those in the file where the search
starts. -/
def usesAcross (symbol : Symbol) (visibility : Visibility) (inFile : Symbol → List Use) (solution : Solution)
    (cancelled : Bool) : ExceptT Error m (List DocumentUses) := do
  if cancelled then
    throw .cancelled
  let uses ← match visibility with
    | .currentDocument => pure (inFile symbol)
    | .projects .. =>
      service.usesInProjects symbol (visibility.searchedProjects solution) solution cancelled
  return groupByDocument (distinctPlaces uses) solution

end Service

end CrossRef
