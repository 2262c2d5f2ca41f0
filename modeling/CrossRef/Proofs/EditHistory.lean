import CrossRef.Proofs.SolutionRuns
import Mathlib.Algebra.GroupWithZero.Nat

/-! Edits one after another, some of which may fail. Whether an edit succeeds and which document it hits depends on
the outline alone, so after any history each document is what the texts for it alone make of it, and the two kinds of
version numbers count the same edits. -/

namespace CrossRef

structure Edit where
  document : DocumentId
  text : String
deriving DecidableEq, Repr

namespace Solution

/-- Makes an edit. One that fails leaves the solution as it was. -/
def tryEdit (s : Solution) (edit : Edit) : Solution :=
  match s.withText edit.document edit.text with
  | .ok t => t
  | .error _ => s

def editedBy (s : Solution) (edits : List Edit) : Solution :=
  edits.foldl tryEdit s

/-- Those of some edits that succeed when all are made one after another. -/
def successes (s : Solution) : List Edit → List Edit
  | [] => []
  | edit :: rest =>
    match s.withText edit.document edit.text with
    | .ok t => edit :: t.successes rest
    | .error _ => s.successes rest

/-- The number, among all documents, of the one that an id names. -/
def numberOf? (s : Solution) (id : DocumentId) : Option Nat :=
  s.documents.findIdx? (·.id.Same id)

def textsFor (s : Solution) (edits : List Edit) (number : Nat) : List String :=
  (edits.filter fun edit => s.numberOf? edit.document = some number).map (·.text)

variable {s t : Solution} {id : DocumentId} {text : String} {edit : Edit} {error : SolutionError}

private theorem editFirst_eq_none {documents : List Document} :
    editFirst id text documents = none ↔ ∀ d ∈ documents, ¬d.id.Same id := by
  induction documents with
  | nil => simp [editFirst]
  | cons first rest ih =>
    rw [editFirst]
    split
    · next same => simp [same]
    · next other => simp [other, ih]

private theorem editProjects_eq_error {projects : List Project} :
    editProjects id text projects = .error error ↔
      (projects.find? (·.id == id.project) = none ∧ error = .projectNotFound id.project) ∨
      ∃ p, projects.find? (·.id == id.project) = some p ∧ editFirst id text p.documents = none ∧
        error = .documentNotFound id.project id.path := by
  induction projects with
  | nil => simp [editProjects, eq_comm]
  | cons first rest ih =>
    rw [editProjects]
    split
    · next same =>
      rw [List.find?_cons_of_pos (by simpa using same)]
      cases found : editFirst id text first.documents <;> simp [found, eq_comm]
    · next other =>
      rw [List.find?_cons_of_neg (by simpa using other), ← ih]
      cases editProjects id text rest <;> simp [Except.map]

/-- An edit fails exactly if its project is unknown or has no document of that id, and says which. -/
theorem withText_eq_error :
    s.withText id text = .error error ↔
      (s.project? id.project = none ∧ error = .projectNotFound id.project) ∨
      ∃ p, s.project? id.project = some p ∧ (∀ d ∈ p.documents, ¬d.id.Same id) ∧
        error = .documentNotFound id.project id.path := by
  have failure : s.withText id text = .error error ↔ editProjects id text s.projects = .error error := by
    rw [withText]
    cases editProjects id text s.projects <;> simp [bind, Except.bind, pure, Except.pure]
  rw [failure, editProjects_eq_error]
  simp only [editFirst_eq_none]
  rfl

private theorem tryEdit_of_ok (success : s.withText edit.document edit.text = .ok t) : s.tryEdit edit = t := by
  rw [tryEdit, success]

private theorem tryEdit_of_error (failure : s.withText edit.document edit.text = .error error) :
    s.tryEdit edit = s := by
  rw [tryEdit, failure]

private theorem outline_tryEdit (s : Solution) (edit : Edit) : (s.tryEdit edit).outline = s.outline := by
  cases outcome : s.withText edit.document edit.text with
  | ok t => rw [tryEdit_of_ok outcome, withText_outline outcome]
  | error e => rw [tryEdit_of_error outcome]

theorem outline_editedBy (s : Solution) (edits : List Edit) : (s.editedBy edits).outline = s.outline := by
  induction edits generalizing s with
  | nil => rfl
  | cons edit rest ih => exact (ih (s.tryEdit edit)).trans (outline_tryEdit s edit)

private theorem numberOf?_eq (s : Solution) (id : DocumentId) :
    s.numberOf? id = (s.outline.flatMap (·.documents)).findIdx? (·.Same id) := by
  rw [← map_id_documents, List.findIdx?_map]
  rfl

private theorem numberOf?_of_outline (outline : t.outline = s.outline) (id : DocumentId) :
    t.numberOf? id = s.numberOf? id := by
  rw [numberOf?_eq, numberOf?_eq, outline]

end Solution

private theorem Reachable.tryEdit {s : Solution} (run : Reachable s) (edit : Edit) : Reachable (s.tryEdit edit) := by
  cases outcome : s.withText edit.document edit.text with
  | ok t => exact Solution.tryEdit_of_ok outcome ▸ .edited run outcome
  | error e => exact (Solution.tryEdit_of_error outcome).symm ▸ run

theorem Reachable.editedBy {s : Solution} (run : Reachable s) (edits : List Edit) : Reachable (s.editedBy edits) := by
  induction edits generalizing s with
  | nil => exact run
  | cons edit rest ih => exact ih (run.tryEdit edit)

namespace WellFormed

variable {s : Solution} (valid : WellFormed s)

include valid

private theorem tryEdit (edit : Edit) : WellFormed (s.tryEdit edit) := by
  cases outcome : s.withText edit.document edit.text with
  | ok t => exact Solution.tryEdit_of_ok outcome ▸ valid.withText outcome
  | error e => exact (Solution.tryEdit_of_error outcome).symm ▸ valid

theorem editedBy (edits : List Edit) : WellFormed (s.editedBy edits) := by
  induction edits generalizing s with
  | nil => exact valid
  | cons edit rest ih => exact ih (valid.tryEdit edit)

theorem numberOf?_eq_none_iff {id : DocumentId} {text : String} :
    s.numberOf? id = none ↔ ∃ error, s.withText id text = .error error := by
  rw [Solution.numberOf?, List.findIdx?_eq_none_iff]
  constructor
  · intro unnamed
    cases outcome : s.withText id text with
    | error e => exact ⟨e, rfl⟩
    | ok t =>
      obtain ⟨front, d, back, whole, -, same, -⟩ := valid.withText_documents outcome
      have other := unnamed d (whole ▸ List.mem_append_right _ (List.mem_cons_self ..))
      exact absurd same (of_decide_eq_false other)
  · rintro ⟨error, failure⟩ d member
    apply decide_eq_false
    intro same
    have found : (s.document? id).isSome := by
      rw [valid.document?_eq_find?, List.find?_isSome]
      exact ⟨d, member, decide_eq_true same⟩
    obtain ⟨e, present⟩ := Option.isSome_iff_exists.mp found
    obtain ⟨t, success⟩ := valid.exists_withText present text
    rw [success] at failure
    cases failure

private theorem withText_number {id : DocumentId} {text : String} {t : Solution} (edit : s.withText id text = .ok t) :
    ∃ number d, s.numberOf? id = some number ∧ s.documents[number]? = some d ∧
      t.documents = s.documents.set number (d.withText text) := by
  obtain ⟨front, d, back, whole, skipped, same, changed, -⟩ := valid.withText_documents edit
  have before : front.findIdx? (·.id.Same id) = none :=
    List.findIdx?_eq_none_iff.mpr fun e member => decide_eq_false (skipped e member)
  refine ⟨front.length, d, ?_, by simp [whole], by simp [whole, changed]⟩
  rw [Solution.numberOf?, whole, List.findIdx?_append, before, List.findIdx?_cons, if_pos (decide_eq_true same)]
  simp

private theorem documents_tryEdit (edit : Edit) (number : Nat) :
    (s.tryEdit edit).documents[number]? =
      s.documents[number]?.map fun d => (s.textsFor [edit] number).foldl Document.withText d := by
  cases outcome : s.withText edit.document edit.text with
  | error e =>
    have unnamed := valid.numberOf?_eq_none_iff.mpr ⟨e, outcome⟩
    rw [Solution.tryEdit_of_error outcome]
    simp [Solution.textsFor, unnamed]
  | ok t =>
    obtain ⟨hit, d, named, present, changed⟩ := valid.withText_number outcome
    obtain ⟨inside, rfl⟩ := List.getElem?_eq_some_iff.mp present
    rw [Solution.tryEdit_of_ok outcome, changed, List.getElem?_set]
    by_cases here : hit = number
    · subst here
      simp [Solution.textsFor, named, inside]
    · simp [Solution.textsFor, named, here]

/-- After any history a document is what the texts for it alone make of it. -/
theorem documents_editedBy (edits : List Edit) (number : Nat) :
    (s.editedBy edits).documents[number]? =
      s.documents[number]?.map fun d => (s.textsFor edits number).foldl Document.withText d := by
  induction edits generalizing s with
  | nil => simp [Solution.editedBy, Solution.textsFor]
  | cons edit rest ih =>
    -- The outline stays, so a number means the same document all along.
    have later : (s.tryEdit edit).textsFor rest number = s.textsFor rest number := by
      simp only [Solution.textsFor, Solution.numberOf?_of_outline (s.outline_tryEdit edit)]
    have whole : s.textsFor (edit :: rest) number = s.textsFor [edit] number ++ s.textsFor rest number := by
      rw [Solution.textsFor, ← List.singleton_append, List.filter_append, List.map_append]
      rfl
    calc ((s.tryEdit edit).editedBy rest).documents[number]?
        = (s.tryEdit edit).documents[number]?.map fun d =>
            (s.textsFor rest number).foldl Document.withText d := by rw [ih (valid.tryEdit edit), later]
      _ = s.documents[number]?.map fun d => (s.textsFor (edit :: rest) number).foldl Document.withText d := by
          rw [valid.documents_tryEdit, Option.map_map, whole]
          simp only [List.foldl_append, Function.comp_def]

private theorem successes_eq_filter (edits : List Edit) :
    s.successes edits = edits.filter fun edit => (s.numberOf? edit.document).isSome := by
  induction edits generalizing s with
  | nil => rfl
  | cons edit rest ih =>
    rw [Solution.successes]
    cases outcome : s.withText edit.document edit.text with
    | error e =>
      have unnamed := valid.numberOf?_eq_none_iff.mpr ⟨e, outcome⟩
      rw [List.filter_cons_of_neg (by simp [unnamed])]
      exact ih valid
    | ok t =>
      obtain ⟨_, _, named, -⟩ := valid.withText_number outcome
      have same : ∀ id, t.numberOf? id = s.numberOf? id := Solution.numberOf?_of_outline (Solution.withText_outline outcome)
      rw [List.filter_cons_of_pos (by simp [named])]
      simp only [ih (valid.withText outcome), same]

theorem length_textsFor (edits : List Edit) (number : Nat) :
    (s.textsFor edits number).length =
      (s.successes edits).countP fun edit => s.numberOf? edit.document = some number := by
  rw [valid.successes_eq_filter, List.countP_filter, Solution.textsFor, List.length_map, ← List.countP_eq_length_filter]
  refine List.countP_congr fun edit _ => ?_
  cases s.numberOf? edit.document <;> simp

/-- The version of the solution grows by what those of the documents grow by together. -/
theorem version_editedBy (edits : List Edit) :
    (s.editedBy edits).version + (s.documents.map (·.version)).sum =
      s.version + ((s.editedBy edits).documents.map (·.version)).sum := by
  induction edits generalizing s with
  | nil => rfl
  | cons edit rest ih =>
    have later := ih (valid.tryEdit edit)
    have onward : s.editedBy (edit :: rest) = (s.tryEdit edit).editedBy rest := rfl
    rw [onward]
    cases outcome : s.withText edit.document edit.text with
    | error e => rwa [Solution.tryEdit_of_error outcome] at later ⊢
    | ok t =>
      obtain ⟨front, d, back, whole, -, -, changed, version⟩ := valid.withText_documents outcome
      have next : (d.withText edit.text).version = d.version + 1 := rfl
      rw [Solution.tryEdit_of_ok outcome, version, changed] at later
      rw [Solution.tryEdit_of_ok outcome, whole]
      simp only [List.map_append, List.map_cons, List.sum_append, List.sum_cons, next] at later ⊢
      omega

end WellFormed

namespace Document

theorem version_foldl (d : Document) (texts : List String) :
    (texts.foldl withText d).version = d.version + texts.length := by
  induction texts generalizing d with
  | nil => rfl
  | cons text rest ih =>
    have next : (d.withText text).version = d.version + 1 := rfl
    rw [List.foldl_cons, ih, next, List.length_cons]
    omega

end Document

namespace Solution

variable {projects : List Project} {base s : Solution}

private theorem version_of_build (success : build projects = .ok base) : base.version = 0 := by
  obtain ⟨sorted, -, made⟩ := bind_eq_ok success
  split at made <;> cases made
  rfl

def Closed (s : Solution) : Prop :=
  ∀ p ∈ s.projects, ∀ id ∈ p.configuration.references, ∃ q ∈ s.projects, q.id = id

theorem closed_of_build (success : build projects = .ok base) : base.Closed := by
  obtain ⟨sorted, -, made⟩ := bind_eq_ok success
  split at made
  · cases made
  · next known =>
    cases made
    intro p member id refers
    have found := List.findSome?_eq_none_iff.mp known p member
    simp only [Option.map_eq_none_iff, List.find?_eq_none] at found
    simpa using found id refers

theorem Closed.of_outline (closed : base.Closed) (outline : s.outline = base.outline) : s.Closed := by
  intro p member id refers
  obtain ⟨q, listed, same⟩ := List.mem_map.mp (outline ▸ List.mem_map_of_mem member : p.outline ∈ base.outline)
  have configuration : q.configuration = p.configuration := congrArg Project.Outline.configuration same
  obtain ⟨r, known, rfl⟩ := closed q listed id (configuration ▸ refers)
  obtain ⟨p', among, equal⟩ := List.mem_map.mp (outline.symm ▸ List.mem_map_of_mem known : r.outline ∈ s.outline)
  exact ⟨p', among, congrArg Project.Outline.id equal⟩

end Solution

/-- Whatever is edited after a solution was built, and whether or not the edits succeed, references name projects, the
index of paths is that of the projects, documents have the index of their lines, and the outline is the first one. The
version of a document grows by the edits that succeeded and hit it, that of the solution by them all, and an edit fails
exactly if its project or its document is unknown. So in a solution of new projects, whose documents start with version
0, versions count edits. Projects taken from another solution bring versions along, and those are not counted again. -/
theorem edits_keep_invariants {projects : List Project} {base : Solution} (sound : ∀ p ∈ projects, p.Sound)
    (success : Solution.build projects = .ok base) (edits : List Edit) :
    let s := base.editedBy edits
    let hits (number : Nat) := (base.successes edits).countP fun edit => base.numberOf? edit.document = some number
    (∀ p ∈ s.projects, ∀ id ∈ p.configuration.references, ∃ q ∈ s.projects, q.id = id) ∧
    s.index = PathIndex.ofProjects s.projects ∧
    (∀ d ∈ s.documents, d.lines = LineIndex.ofText d.text) ∧
    s.outline = base.outline ∧
    (∀ number d, s.documents[number]? = some d →
      ∃ e, base.documents[number]? = some e ∧ d.version = e.version + hits number) ∧
    (s.documents.map (·.version)).sum = (base.documents.map (·.version)).sum + s.version ∧
    ((∀ p ∈ projects, ∀ d ∈ p.documents, d.version = 0) →
      (∀ number d, s.documents[number]? = some d → d.version = hits number) ∧
        s.version = (s.documents.map (·.version)).sum) ∧
    ∀ id text error, s.withText id text = .error error ↔
      (s.project? id.project = none ∧ error = .projectNotFound id.project) ∨
      ∃ p, s.project? id.project = some p ∧ (∀ d ∈ p.documents, ¬d.id.Same id) ∧
        error = .documentNotFound id.project id.path := by
  intro s hits
  have start := Reachable.built sound success
  have valid := start.wellFormed
  have outline : s.outline = base.outline := base.outline_editedBy edits
  have versions : ∀ number d, s.documents[number]? = some d →
      ∃ e, base.documents[number]? = some e ∧ d.version = e.version + hits number := by
    intro number d present
    rw [valid.documents_editedBy edits number] at present
    obtain ⟨e, known, rfl⟩ := Option.map_eq_some_iff.mp present
    exact ⟨e, known, by rw [Document.version_foldl, valid.length_textsFor]⟩
  have total : (s.documents.map (·.version)).sum = (base.documents.map (·.version)).sum + s.version := by
    have counted : s.version + _ = base.version + (s.documents.map (·.version)).sum := valid.version_editedBy edits
    rw [Solution.version_of_build success, Nat.zero_add] at counted
    rw [← counted, Nat.add_comm]
  refine ⟨(Solution.closed_of_build success).of_outline outline, (valid.editedBy edits).index, ?_, outline, versions,
    total, ?_, fun id text error => Solution.withText_eq_error⟩
  · intro d member
    obtain ⟨p, listed, inside⟩ := List.mem_flatMap.mp member
    exact ((start.editedBy edits).sound p listed d inside).2
  · intro new
    have zero : ∀ e ∈ base.documents, e.version = 0 := by
      intro e member
      obtain ⟨p, listed, inside⟩ := List.mem_flatMap.mp member
      exact new p ((Solution.build_eq_ok success).2.1 p listed) e inside
    constructor
    · intro number d present
      obtain ⟨e, known, count⟩ := versions number d present
      rw [count, zero e (List.mem_of_getElem? known), Nat.zero_add]
    · rw [List.map_congr_left zero] at total
      simpa using total.symm

namespace Sample

theorem built : Solution.build [lib, app] = .ok solution := by decide

/-- Two edits of the library, the second one under another spelling, and between them two that fail. -/
def history : List Edit :=
  [⟨library.id, "let a = 2"⟩, ⟨⟨"Lib", .ofText "app.ml"⟩, ""⟩, ⟨⟨"None", .ofText "lib.ml"⟩, ""⟩,
    ⟨⟨"Lib", .ofText "lib.ml//"⟩, "let a = 3"⟩]

theorem history_counted :
    let s := solution.editedBy history
    s.outline = solution.outline ∧ (∃ d, s.documents[1]? = some d ∧ d.version = 2) ∧
      s.withText ⟨"Lib", .ofText "app.ml"⟩ "" = .error (.documentNotFound "Lib" (.ofText "app.ml")) ∧
      s.withText ⟨"None", .ofText "lib.ml"⟩ "" = .error (.projectNotFound "None") := by
  obtain ⟨-, -, -, outline, -, -, counted, failures⟩ := edits_keep_invariants (by decide) built history
  obtain ⟨versions, -⟩ := counted (by decide)
  obtain ⟨d, present⟩ : ∃ d, (solution.editedBy history).documents[1]? = some d := ⟨_, rfl⟩
  refine ⟨outline, ⟨d, present, ?_⟩, ?_, ?_⟩
  · rw [versions 1 d present]
    decide
  · exact (failures _ _ _).mpr (.inr ⟨_, rfl, by decide, rfl⟩)
  · exact (failures _ _ _).mpr (.inl ⟨rfl, rfl⟩)

end Sample

end CrossRef
