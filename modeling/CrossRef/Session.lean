import CrossRef.Check.Cache
import CrossRef.Rename.Plan

/-! A session: a current solution, on which searches are made and plans carried out. -/

namespace CrossRef

/-- The uses of a symbol in the whole solution. -/
structure References where
  symbol : Symbol
  visibility : Visibility
  documents : List DocumentUses
deriving DecidableEq, Repr

def References.count (r : References) : Nat :=
  (r.documents.flatMap (·.uses)).length

/-- An offset in a document. -/
structure Cursor where
  document : DocumentId
  offset : Nat
deriving DecidableEq, Repr

namespace Service

variable {m : Type → Type} [Monad m] (service : Service m)

/-- The uses, in its own document, of the symbol at a cursor. -/
def fileUses (solution : Solution) (cursor : Cursor) : ExceptT Error m (Option (List Use)) := do
  let document ← solution.find cursor.document
  let resolved ← service.resolveAt solution document cursor.offset
  return resolved.map fun r => usesOf r.use.symbol r.fileUses

/-- The uses, wherever it is visible, of the symbol at a cursor. Those of a document are in the order of
their places. -/
def references (solution : Solution) (cursor : Cursor) (cancelled : Bool) :
    ExceptT Error m (Option References) := do
  let document ← solution.find cursor.document
  match ← service.resolveAt solution document cursor.offset with
  | none => return none
  | some resolved =>
    let symbol := resolved.use.symbol
    match symbol.visibility? document solution with
    | none => return none
    | some visibility =>
      let groups ← service.usesAcross symbol visibility (usesOf · resolved.fileUses) solution cancelled
      return some ⟨symbol, visibility, groups.map fun group =>
        { group with uses := group.uses.mergeSort fun u v => (compare u.place v.place).isLE }⟩

end Service

/-- A current solution, the plans that were made by name, and how plans are carried out unless a request says
otherwise. -/
structure Session where
  current : Solution
  plans : List (String × Plan)
  strategy : Rename.Strategy

inductive Request where
  | candidate (cursor : Cursor)
  | fileUses (cursor : Cursor)
  | references (cursor : Cursor) (cancelled : Bool)
  /-- The uses in some projects of the symbol at a cursor. -/
  | projectUses (cursor : Cursor) (projects : List ProjectId) (cancelled : Bool)
  | documentOf (path : Path)
  | plan (document : DocumentId) (span : Span) (change : String → String) (name : String)
  | locations (plan : String) (cancelled : Bool)
  /-- Carries out a plan without keeping the result. -/
  | apply (plan : String) (strategy : Option Rename.Strategy) (cancelled : Bool)
  | commit (plan : String) (cancelled : Bool)
  | edit (document : DocumentId) (text : String)
  | replace (projects : List Project)
  | current

inductive Reply where
  | candidate (found : Option Syntax.Candidate)
  | uses (found : Option (List Use))
  | references (found : Option References)
  | document (id : DocumentId)
  | plan (made : Option Plan)
  | locations (groups : List DocumentUses)
  /-- A solution, and the documents that differ from the one before. -/
  | changed (solution : Solution) (documents : List DocumentId)
  | solution (current : Solution)
  | done
deriving DecidableEq, Repr

namespace Session

variable {m : Type → Type} [Monad m] (service : Service m)

def plan? (session : Session) (name : String) : Option Plan :=
  session.plans.lookup name

/-- Answers a request that does not change the session. A plan that was not made has no answer. -/
def ask (session : Session) : Request → ExceptT Error m Reply
  | .candidate cursor => do
    let document ← session.current.find cursor.document
    return .candidate (← service.candidateAt session.current document cursor.offset)
  | .fileUses cursor => return .uses (← service.fileUses session.current cursor)
  | .references cursor cancelled =>
    return .references (← service.references session.current cursor cancelled)
  | .projectUses cursor projects cancelled => do
    match ← service.fileUses session.current cursor with
    | some (first :: _) =>
      return .uses (some (← service.usesInProjects first.symbol projects session.current cancelled))
    | _ => return .uses none
  | .documentOf path =>
    match session.current.documentsOf path with
    | id :: _ => return .document id
    | [] => throw (.solution (.fileNotInSolution path))
  | .plan document span change _ => do
    let document ← session.current.find document
    return .plan (← service.plan session.current document span session.strategy change)
  | .locations name cancelled =>
    match session.plan? name with
    | none => return .done
    | some plan => return .locations (← service.locations plan session.current cancelled)
  | .apply name strategy cancelled =>
    match session.plan? name with
    | none => return .done
    | some plan => do
      let updated ← service.apply { plan with strategy := strategy.getD plan.strategy } session.current
        cancelled
      return .changed updated (updated.changedSince session.current)
  | .commit name cancelled =>
    match session.plan? name with
    | none => return .done
    | some plan => do
      let updated ← service.apply plan session.current cancelled
      return .changed updated (updated.changedSince session.current)
  | .edit document text => do
    let updated ← (session.current.withText document text).mapError Error.solution
    return .changed updated [document]
  | .replace projects => do
    let built ← (Solution.build projects).mapError Error.solution
    return .solution built
  | .current => return .solution session.current

/-- The session after a request was answered. -/
def after (session : Session) (request : Request) (reply : Reply) : Session :=
  match request, reply with
  | .plan _ _ _ name, .plan (some plan) => { session with plans := (name, plan) :: session.plans }
  | .commit .., .changed updated _ => { session with current := updated }
  | .edit .., .changed updated _ => { session with current := updated }
  | .replace _, .solution built => { session with current := built }
  | _, _ => session

/-- Answers a request. A request that fails leaves the session as it was. -/
def step (session : Session) (request : Request) : m (Except Error Reply × Session) := do
  match ← (session.ask service request).run with
  | .error e => return (.error e, session)
  | .ok reply => return (.ok reply, session.after request reply)

/-- Answers requests one after the other. -/
def run (session : Session) : List Request → m (List (Except Error Reply) × Session)
  | [] => return ([], session)
  | request :: rest => do
    let (reply, next) ← session.step service request
    let (replies, last) ← Session.run next rest
    return (reply :: replies, last)

end Session

end CrossRef
