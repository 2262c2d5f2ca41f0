import CrossRef.Proofs.LocatedUses
import CrossRef.Session

/-! A service that keeps state agrees with the plain one if each of its checks does. The rules below follow the
way computations are put together, so the agreement of a search, a plan or a whole session is read off its
definition. -/

namespace CrossRef
open Check

variable {σ ε α β : Type} {valid : σ → Prop}

/-- From every valid state a computation gives the same value, and it leaves a valid state. -/
structure Agrees (valid : σ → Prop) (x : StateM σ α) (value : α) : Prop where
  run : ∀ s, valid s → ∃ t, x.run s = (value, t) ∧ valid t

namespace Agrees

theorem pure (value : α) : Agrees valid (pure value) value :=
  ⟨fun s kept => ⟨s, rfl, kept⟩⟩

theorem bind {x : StateM σ α} {next : α → StateM σ β} {value : α} {result : β} (first : Agrees valid x value)
    (rest : Agrees valid (next value) result) : Agrees valid (x >>= next) result := by
  constructor
  intro s kept
  obtain ⟨t, ran, kept⟩ := first.run s kept
  obtain ⟨u, last, kept⟩ := rest.run t kept
  refine ⟨u, ?_, kept⟩
  rw [StateT.run_bind, ran]
  exact last

private theorem except_bind {x : ExceptT ε (StateM σ) α} {y : ExceptT ε Id α} {next : α → ExceptT ε (StateM σ) β}
    {last : α → ExceptT ε Id β} (first : Agrees valid x.run y.run)
    (rest : ∀ value, y.run = .ok value → Agrees valid (next value).run (last value).run) :
    Agrees valid (x >>= next).run (y >>= last).run := by
  rw [ExceptT.run_bind, ExceptT.run_bind]
  apply first.bind
  cases outcome : y.run with
  | error e => exact .pure _
  | ok value => exact rest value outcome

private theorem of_except (outcome : Except ε α) :
    Agrees valid (liftM outcome : ExceptT ε (StateM σ) α).run (liftM outcome : ExceptT ε Id α).run := by
  cases outcome <;> exact .pure _

theorem lift {x : StateM σ α} {y : Id α} (agrees : Agrees valid x y.run) :
    Agrees valid (liftM x : ExceptT ε (StateM σ) α).run (liftM y : ExceptT ε Id α).run := by
  have wrapped : Agrees valid (x >>= fun value => Pure.pure (Except.ok value)) (Except.ok (ε := ε) y.run) :=
    agrees.bind (.pure _)
  rw [← map_eq_pure_bind] at wrapped
  exact wrapped

end Agrees

theorem Solution.document?_of_find {s : Solution} {id : DocumentId} {d : Document}
    (found : (liftM (s.find id) : ExceptT Error Id Document).run = .ok d) : s.document? id = some d := by
  unfold find at found
  split at found
  · next present =>
    cases found
    exact present
  · cases found

theorem Solution.find_of_document? {s : Solution} {id : DocumentId} {d : Document} (present : s.document? id = some d) :
    (liftM (s.find id) : ExceptT Error Id Document).run = .ok d := by
  rw [find, present]
  rfl

/-- A service that answers as the plain one does, for all solutions of a kind. -/
structure Service.Mirrors (service : Service (StateM σ)) (valid : σ → Prop) (lookup : Syntax.Lookup)
    (known : Solution → Prop) : Prop where
  options : service.options? = Solution.options?
  lookup : service.lookup = lookup
  file : ∀ {s id d options}, known s → s.document? id = some d → s.options? d.id.project = some options →
    Agrees valid (service.checker.file d.path d.version d.text options) (.ok (checkFile d.path d.text options))
  project : ∀ {s id options}, known s → s.options? id = some options →
    Agrees valid (service.checker.project options) (.ok (projectCheck options))

namespace Service.Mirrors

variable {service : Service (StateM σ)} {lookup : Syntax.Lookup} {known : Solution → Prop}
  (mirrors : service.Mirrors valid lookup known) {s : Solution}

include mirrors

theorem candidateAt (s : Solution) (d : Document) (offset : Nat) :
    service.candidateAt s d offset = (plain lookup).candidateAt s d offset := by
  simp only [Service.candidateAt, mirrors.options, mirrors.lookup, plain]

variable (present : known s)

include present

theorem checkDocument {id : DocumentId} {d : Document} (found : s.document? id = some d) :
    Agrees valid (service.checkDocument s d).run ((plain lookup).checkDocument s d).run := by
  simp only [Service.checkDocument, mirrors.options, plain]
  cases checked : s.options? d.id.project with
  | none => exact .pure _
  | some options =>
    apply Agrees.except_bind (mirrors.file present found checked).lift
    intro outcome same
    cases outcome <;> exact .pure _

theorem resolveAt {id : DocumentId} {d : Document} (found : s.document? id = some d) (offset : Nat) :
    Agrees valid (service.resolveAt s d offset).run ((plain lookup).resolveAt s d offset).run := by
  simp only [Service.resolveAt, mirrors.candidateAt]
  apply Agrees.except_bind (.of_except _)
  intro candidate same
  cases candidate with
  | none => exact .pure _
  | some candidate =>
    apply Agrees.except_bind (mirrors.checkDocument present found)
    intro uses same
    cases uses <;> exact .pure _

theorem usesInProject (symbol : Symbol) (project : ProjectId) :
    Agrees valid (service.usesInProject symbol s project) ((plain lookup).usesInProject symbol s project) := by
  simp only [Service.usesInProject, mirrors.options, plain]
  cases checked : s.options? project with
  | none => exact .pure _
  | some options => exact (mirrors.project present checked).bind (.pure _)

theorem searchEach (symbol : Symbol) (items : List (ProjectId × Nat)) :
    Agrees valid (service.searchEach symbol s items) ((plain lookup).searchEach symbol s items) := by
  induction items with
  | nil => exact .pure _
  | cons item rest ih =>
    simp only [Service.searchEach]
    apply (mirrors.usesInProject present symbol item.1).bind
    cases outcome : (plain lookup).usesInProject symbol s item.1 with
    | error e => exact .pure _
    | ok uses => exact ih.bind (.pure _)

theorem usesInProjects (symbol : Symbol) (projects : List ProjectId) (cancelled : Bool) :
    Agrees valid (service.usesInProjects symbol projects s cancelled).run
      ((plain lookup).usesInProjects symbol projects s cancelled).run := by
  simp only [Service.usesInProjects]
  cases cancelled with
  | true => exact .pure _
  | false =>
    apply Agrees.except_bind (mirrors.searchEach present symbol projects.zipIdx).lift
    intro completed same
    exact .of_except _

theorem usesAcross (symbol : Symbol) (visibility : Visibility) (inFile : Symbol → List Use) (cancelled : Bool) :
    Agrees valid (service.usesAcross symbol visibility inFile s cancelled).run
      ((plain lookup).usesAcross symbol visibility inFile s cancelled).run := by
  simp only [Service.usesAcross]
  cases cancelled with
  | true => exact .pure _
  | false =>
    cases visibility with
    | currentDocument => exact .pure _
    | projects ids isInternal =>
      apply Agrees.except_bind (mirrors.usesInProjects present ..)
      intro uses same
      exact .pure _

theorem plan {id : DocumentId} {d : Document} (found : s.document? id = some d) (span : Span)
    (strategy : Rename.Strategy) (change : String → String) :
    Agrees valid (service.plan s d span strategy change).run ((plain lookup).plan s d span strategy change).run := by
  unfold Service.plan
  split
  · exact .pure _
  · simp only
    split
    · exact .pure _
    · split
      · exact .pure _
      · apply Agrees.except_bind (mirrors.resolveAt present found _)
        intro resolved same
        cases resolved <;> exact .pure _

theorem locations (plan : Plan) (cancelled : Bool) :
    Agrees valid (service.locations plan s cancelled).run ((plain lookup).locations plan s cancelled).run := by
  simp only [Service.locations, Service.originUses]
  cases cancelled with
  | true => exact .pure _
  | false =>
    simp only [Bool.false_eq_true, if_false]
    cases plan.visibility with
    | projects ids isInternal => exact mirrors.usesAcross present ..
    | currentDocument =>
      apply Agrees.except_bind
      · cases found : s.document? plan.document with
        | none => exact .pure _
        | some d =>
          simp only
          split
          · exact .pure _
          · exact mirrors.checkDocument present found
      · intro uses same
        cases uses with
        | none => exact .pure _
        | some uses => exact mirrors.usesAcross present ..

theorem apply (plan : Plan) (cancelled : Bool) :
    Agrees valid (service.apply plan s cancelled).run ((plain lookup).apply plan s cancelled).run := by
  apply Agrees.except_bind (mirrors.locations present plan cancelled)
  intro groups same
  exact .of_except _

theorem fileUses (cursor : Cursor) :
    Agrees valid (service.fileUses s cursor).run ((plain lookup).fileUses s cursor).run := by
  apply Agrees.except_bind (.of_except _)
  intro d found
  apply Agrees.except_bind (mirrors.resolveAt present (Solution.document?_of_find found) cursor.offset)
  intro resolved same
  exact .pure _

theorem references (cursor : Cursor) (cancelled : Bool) :
    Agrees valid (service.references s cursor cancelled).run ((plain lookup).references s cursor cancelled).run := by
  apply Agrees.except_bind (.of_except _)
  intro d found
  apply Agrees.except_bind (mirrors.resolveAt present (Solution.document?_of_find found) cursor.offset)
  intro resolved same
  cases resolved with
  | none => exact .pure _
  | some resolved =>
    simp only
    split
    · exact .pure _
    · apply Agrees.except_bind (mirrors.usesAcross present ..)
      intro groups same
      exact .pure _

end Service.Mirrors

namespace Session

variable {service : Service (StateM σ)} {lookup : Syntax.Lookup} {known : Solution → Prop}
  (mirrors : service.Mirrors valid lookup known) {session : Session} (present : known session.current)

include mirrors present

private theorem ask_agrees (request : Request) :
    Agrees valid (session.ask service request).run (session.ask (.plain lookup) request).run := by
  cases request with
  | candidate cursor =>
    simp only [ask, mirrors.candidateAt]
    apply Agrees.except_bind (.of_except _)
    intro d found
    apply Agrees.except_bind (.of_except _)
    intro candidate same
    exact .pure _
  | fileUses cursor =>
    apply Agrees.except_bind (mirrors.fileUses present cursor)
    intro uses same
    exact .pure _
  | references cursor cancelled =>
    apply Agrees.except_bind (mirrors.references present cursor cancelled)
    intro found same
    exact .pure _
  | projectUses cursor projects cancelled =>
    apply Agrees.except_bind (mirrors.fileUses present cursor)
    intro uses same
    split
    · apply Agrees.except_bind (mirrors.usesInProjects present ..)
      intro found same
      exact .pure _
    · exact .pure _
  | documentOf path =>
    simp only [ask]
    split <;> exact .pure _
  | plan id span change name =>
    apply Agrees.except_bind (.of_except _)
    intro d found
    apply Agrees.except_bind (mirrors.plan present (Solution.document?_of_find found) ..)
    intro plan same
    exact .pure _
  | locations name cancelled =>
    simp only [ask]
    split
    · exact .pure _
    · apply Agrees.except_bind (mirrors.locations present ..)
      intro groups same
      exact .pure _
  | apply name strategy cancelled | commit name cancelled =>
    simp only [ask]
    split
    · exact .pure _
    · apply Agrees.except_bind (mirrors.apply present ..)
      intro updated same
      exact .pure _
  | edit id text | replace projects =>
    apply Agrees.except_bind (.of_except _)
    intro updated same
    exact .pure _
  | current => exact .pure _

theorem step_agrees (request : Request) :
    Agrees valid (session.step service request) (session.step (.plain lookup) request) := by
  apply (ask_agrees mirrors present request).bind
  simp only [step]
  cases (session.ask (.plain lookup) request).run <;> exact .pure _

end Session

end CrossRef
