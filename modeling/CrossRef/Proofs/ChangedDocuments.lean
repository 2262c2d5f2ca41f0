import CrossRef.Proofs.EditHistory
import CrossRef.Proofs.PlanOutcome

/-! Which documents differ between two solutions of one history. An edit counts the version of one document up and leaves
the others as they are, so a version comes back only to a document that no edit in between has hit, whatever texts it
has had meanwhile. -/

namespace CrossRef

namespace Document

/-- The document as some edits leave it: those that name it are made in their order. -/
def editedBy (d : Document) (edits : List Edit) : Document :=
  ((edits.filter (·.document.Same d.id)).map (·.text)).foldl withText d

private theorem id_foldl (d : Document) (texts : List String) : (texts.foldl withText d).id = d.id := by
  induction texts generalizing d with
  | nil => rfl
  | cons text rest ih => exact ih (d.withText text)

private theorem editedBy_id (d : Document) (edits : List Edit) : (d.editedBy edits).id = d.id :=
  d.id_foldl _

theorem editedBy_cons (d : Document) (edit : Edit) (rest : List Edit) :
    d.editedBy (edit :: rest) =
      (if d.id.Same edit.document then d.withText edit.text else d).editedBy rest := by
  by_cases named : d.id.Same edit.document
  · have same : edit.document.Same d.id := Eq.symm named
    rw [if_pos named, editedBy, List.filter_cons_of_pos (by simpa using same)]
    rfl
  · have other : ¬edit.document.Same d.id := fun same => named (Eq.symm same)
    rw [if_neg named, editedBy, List.filter_cons_of_neg (by simpa using other)]
    rfl

theorem version_editedBy_ne_iff (d : Document) (edits : List Edit) :
    (d.editedBy edits).version ≠ d.version ↔ ∃ edit ∈ edits, edit.document.Same d.id := by
  have count : (d.editedBy edits).version = d.version + (edits.filter (·.document.Same d.id)).length := by
    rw [editedBy, version_foldl, List.length_map]
  have some_edit : 0 < (edits.filter (·.document.Same d.id)).length ↔ ∃ edit ∈ edits, edit.document.Same d.id := by
    simp [List.length_pos_iff_exists_mem]
  rw [← some_edit, count]
  omega

end Document

namespace Solution

/-- A run of edits that all succeed. -/
def edited (s : Solution) (edits : List Edit) : Except SolutionError Solution :=
  edits.foldlM (fun s edit => s.withText edit.document edit.text) s

theorem Distinct.of_outline {s t : Solution} (distinct : s.Distinct) (outline : t.outline = s.outline) :
    t.Distinct := by
  have ids : t.documents.map (·.id) = s.documents.map (·.id) := by
    rw [map_id_documents, map_id_documents, outline]
  have keys := congrArg (List.map DocumentId.key) ids
  rw [List.map_map, List.map_map] at keys
  rw [Distinct] at distinct ⊢
  exact (congrArg List.Nodup keys).mpr distinct

variable {s t : Solution}

private theorem documents_withText (valid : WellFormed s) (distinct : s.Distinct) {id : DocumentId} {text : String}
    (edit : s.withText id text = .ok t) :
    t.documents = s.documents.map fun d => if d.id.Same id then d.withText text else d := by
  obtain ⟨front, d, back, whole, skipped, hit, changed, -⟩ := valid.withText_documents edit
  have apart := distinct
  rw [Distinct, whole, List.map_append, List.map_cons, List.nodup_append, List.nodup_cons] at apart
  have behind : ∀ e ∈ back, ¬e.id.Same id := fun e member same =>
    apart.2.1.1 (List.mem_map.mpr ⟨e, member, Eq.trans same (Eq.symm hit)⟩)
  have still {documents : List Document} (other : ∀ e ∈ documents, ¬e.id.Same id) :
      documents.map (fun e => if e.id.Same id then e.withText text else e) = documents :=
    (List.map_congr_left fun e member => if_neg (other e member)).trans (List.map_id' documents)
  rw [changed, whole, List.map_append, List.map_cons, if_pos hit, still skipped, still behind]

/-- After a run of edits each document is what those that name it make of it. -/
theorem edited_eq_ok (valid : WellFormed s) (distinct : s.Distinct) {edits : List Edit} (run : s.edited edits = .ok t) :
    WellFormed t ∧ t.Distinct ∧ t.documents = s.documents.map (·.editedBy edits) := by
  induction edits generalizing s with
  | nil =>
    cases run
    exact ⟨valid, distinct, (List.map_id' _).symm⟩
  | cons edit rest ih =>
    rw [edited, List.foldlM_cons] at run
    obtain ⟨next, step, later⟩ := bind_eq_ok run
    obtain ⟨kept, apart, documents⟩ := ih (valid.withText step) (distinct.of_outline (withText_outline step)) later
    refine ⟨kept, apart, ?_⟩
    rw [documents, documents_withText valid distinct step, List.map_map]
    exact List.map_congr_left fun d _ => (d.editedBy_cons edit rest).symm

theorem changedSince_of_map {change : Document → Document} (valid : WellFormed s) (distinct : s.Distinct)
    (valid' : WellFormed t) (distinct' : t.Distinct) (same : ∀ d, (change d).id = d.id)
    (documents : t.documents = s.documents.map change) :
    t.changedSince s = (s.documents.filter fun d => (change d).version ≠ d.version).map (·.id) ∧
      s.changedSince t = (s.documents.filter fun d => (change d).version ≠ d.version).map (·.id) := by
  have before : ∀ d ∈ s.documents, s.document? (change d).id = some d := fun d member =>
    valid.document?_of_mem distinct member ((same d).symm ▸ rfl)
  have after : ∀ d ∈ s.documents, t.document? d.id = some (change d) := fun d member =>
    valid'.document?_of_mem distinct' (documents ▸ List.mem_map_of_mem member) ((same d).symm ▸ rfl)
  constructor
  · rw [changedSince, documents, List.filter_map, List.map_map]
    refine (List.map_congr_left fun d _ => same d).trans (congrArg (List.map Document.id) ?_)
    refine List.filter_congr fun d member => ?_
    simp only [Function.comp_apply, before d member, Option.all_some, bne, beq_eq_decide, decide_not, eq_comm]
  · rw [changedSince]
    refine congrArg (List.map Document.id) (List.filter_congr fun d member => ?_)
    simp only [after d member, Option.all_some, bne, beq_eq_decide, decide_not]

end Solution

/-- After any edits that succeed, the solutions before and behind them differ in the documents that were edited at least
once, in their order and each of them once, whichever of the two is asked and whatever the texts have become. -/
theorem changedSince_eq_edited {base updated : Solution} (run : Reachable base) (distinct : base.Distinct)
    {edits : List Edit} (success : base.edited edits = .ok updated) :
    let hit := (base.documents.map (·.id)).filter fun id => edits.any (·.document.Same id)
    updated.changedSince base = hit ∧ base.changedSince updated = hit ∧ hit.Pairwise fun a b => ¬a.Same b := by
  intro hit
  have valid := run.wellFormed
  obtain ⟨kept, apart, documents⟩ := Solution.edited_eq_ok valid distinct success
  have listed : (base.documents.filter fun d => (d.editedBy edits).version ≠ d.version).map (·.id) = hit := by
    simp only [hit, List.filter_map, Function.comp_def, Document.version_editedBy_ne_iff]
    refine congrArg (List.map Document.id) (List.filter_congr fun d _ => ?_)
    rw [Bool.eq_iff_iff, decide_eq_true_eq, List.any_eq_true]
    simp only [decide_eq_true_eq]
  obtain ⟨later, earlier⟩ := Solution.changedSince_of_map valid distinct kept apart
    (fun d => d.editedBy_id edits) documents
  refine ⟨later.trans listed, earlier.trans listed, ?_⟩
  have ids : (base.documents.map (·.id)).Pairwise fun a b => ¬a.Same b :=
    List.pairwise_map.mpr (List.pairwise_map.mp distinct)
  exact ids.filter _

namespace Sample

def restoring : List Edit :=
  [⟨library.id, "let a = 2"⟩, ⟨⟨"Lib", .ofText "lib.ml//"⟩, library.text⟩]

theorem restored_text_counts :
    let restored := solution.editedBy restoring
    restored.documents.map (·.text) = solution.documents.map (·.text) ∧
    restored.changedSince solution = [library.id] ∧ solution.changedSince restored = [library.id] := by
  intro restored
  have distinct : solution.Distinct := by
    rw [Solution.Distinct]
    decide
  have success : solution.edited restoring = .ok restored := rfl
  obtain ⟨later, earlier, -⟩ := changedSince_eq_edited reachable distinct success
  have hit : ((solution.documents.map (·.id)).filter fun id => restoring.any (·.document.Same id)) = [library.id] := by
    decide
  exact ⟨rfl, later.trans hit, earlier.trans hit⟩

end Sample

end CrossRef
