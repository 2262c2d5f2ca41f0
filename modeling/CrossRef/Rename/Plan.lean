import CrossRef.Rename.Replace
import CrossRef.Search.Service

/-! Planning a rename at one place and carrying it out in the whole solution. A plan may be applied to a
later solution than the one it was made for. -/

namespace CrossRef

structure Plan where
  document : DocumentId
  /-- Version and text of the document when the plan was made. -/
  version : Nat
  text : String
  span : Span
  /-- The text under the span. -/
  covered : String
  /-- What takes the place of the symbol's name. -/
  new : String
  symbol : Symbol
  visibility : Visibility
  /-- All uses in the document when the plan was made. -/
  fileUses : List Use
  strategy : Rename.Strategy
deriving DecidableEq, Repr

namespace Service

variable {m : Type → Type} [Monad m] (service : Service m)

/-- Plans to rename the symbol that a span covers. There is no plan for an empty or blank span, where no
symbol is found, or for a symbol declared outside the solution. -/
def plan (solution : Solution) (document : Document) (span : Span) (strategy : Rename.Strategy)
    (change : String → String) : ExceptT Error m (Option Plan) := do
  if span.isEmpty then
    return none
  let text := document.text
  match span.slice? text with
  | none => throw (.solution (.invalidSpan span.start (span.stopIn text.utf8ByteSize) text.utf8ByteSize))
  | some covered =>
    if (Text.trim covered.toList).isEmpty then
      return none
    match ← service.resolveAt solution document (Syntax.narrow text span).start with
    | none => return none
    | some resolved =>
      let symbol := resolved.use.symbol
      return (symbol.visibility? document solution).map fun visibility => {
        document := document.id
        version := document.version
        text
        span
        covered
        new := change covered
        symbol
        visibility
        fileUses := resolved.fileUses
        strategy }

/-- The uses in the plan's document as it stands in a solution. The check made for the plan still holds
if the document is unchanged. -/
def originUses (plan : Plan) (solution : Solution) : ExceptT Error m (Option (List Use)) := do
  match solution.document? plan.document with
  | none => return none
  | some document =>
    if document.version = plan.version ∧ document.text = plan.text then
      return some plan.fileUses
    else
      service.checkDocument solution document

/-- The uses that a plan would change in a solution. -/
def locations (plan : Plan) (solution : Solution) (cancelled : Bool) :
    ExceptT Error m (List DocumentUses) := do
  if cancelled then
    throw .cancelled
  match plan.visibility with
  | .projects .. => service.usesAcross plan.symbol plan.visibility (usesOf · plan.fileUses) solution cancelled
  | .currentDocument =>
    match ← service.originUses plan solution with
    | none => return []
    | some fileUses => service.usesAcross plan.symbol plan.visibility (usesOf · fileUses) solution cancelled

end Service

namespace Plan

/-- Changes one document. A document whose text stays the same is not edited. -/
def changeDocument (plan : Plan) (solution : Solution) (group : DocumentUses) :
    Except Error Solution :=
  match solution.document? group.document with
  | none => .ok solution
  | some document =>
    let text := Rename.replace plan.strategy document.text plan.symbol.name plan.new
      (group.uses.map (·.place.range))
    if text = document.text then .ok solution
    else (solution.withText group.document text).mapError .solution

/-- Changes the given uses. -/
def change (plan : Plan) (solution : Solution) (groups : List DocumentUses) : Except Error Solution :=
  groups.foldlM plan.changeDocument solution

end Plan

/-- Carries out a plan in a solution. -/
def Service.apply {m : Type → Type} [Monad m] (service : Service m) (plan : Plan) (solution : Solution)
    (cancelled : Bool) : ExceptT Error m Solution := do
  let groups ← service.locations plan solution cancelled
  plan.change solution groups

end CrossRef
