import CrossRef.Proofs.PlanFrame

/-! What a plan leaves behind where no two documents are the same one. Changing the groups one after the other
then never fails, and it comes to changing each document by the group that it heads. -/

namespace CrossRef

/-- No project lists a path twice. -/
def Solution.Distinct (s : Solution) : Prop :=
  (s.documents.map (·.id.key)).Nodup

theorem Solution.Distinct.eq_of_same {s : Solution} (distinct : s.Distinct) {d e : Document}
    (first : d ∈ s.documents) (second : e ∈ s.documents) (same : d.id.Same e.id) : d = e :=
  List.inj_on_of_nodup_map distinct first second same

theorem WellFormed.document?_of_mem {s : Solution} (valid : WellFormed s) (distinct : s.Distinct) {d : Document}
    (member : d ∈ s.documents) {id : DocumentId} (same : d.id.Same id) : s.document? id = some d := by
  rw [valid.document?_eq_find?]
  cases found : s.documents.find? (·.id.Same id) with
  | none => exact absurd same (by simpa using List.find?_eq_none.mp found d member)
  | some e =>
    have other : e.id.Same id := by simpa using List.find?_some found
    rw [distinct.eq_of_same (List.mem_of_find?_eq_some found) member (other.trans same.symm)]

def Project.mapDocuments (change : Document → Document) (p : Project) : Project :=
  p.withDocuments (p.documents.map change)

theorem Solution.projects_eq_map {s t : Solution} {change : Document → Document} (outline : t.outline = s.outline)
    (documents : t.documents = s.documents.map change) : t.projects = s.projects.map (·.mapDocuments change) := by
  simp only [Solution.outline, Solution.documents] at outline documents
  generalize t.projects = after at outline documents
  generalize s.projects = before at outline documents
  induction before generalizing after with
  | nil => simpa using outline
  | cons p before ih =>
    cases after with
    | nil => cases outline
    | cons q after =>
      obtain ⟨first, rest⟩ := List.cons.inj outline
      have sizes : q.documents.length = (p.documents.map change).length := by
        have ids := congrArg (fun o => o.documents.length) first
        simpa [Project.outline] using ids
      rw [List.flatMap_cons, List.flatMap_cons, List.map_append] at documents
      obtain ⟨here, later⟩ := List.append_inj documents sizes
      rw [List.map_cons, ih after rest later]
      refine congrArg (· :: _) (Project.ext_documents ?_ ?_ here)
      · exact congrArg Project.Outline.id first
      · exact congrArg Project.Outline.configuration first

namespace Plan

variable (plan : Plan)

def edited (d : Document) (group : DocumentUses) : Document :=
  if plan.rewritten d.text group = d.text then d else d.withText (plan.rewritten d.text group)

theorem edited_text (d : Document) (group : DocumentUses) :
    (plan.edited d group).text = plan.rewritten d.text group := by
  unfold edited
  split
  · rename_i same
    exact same.symm
  · rfl

def changed (groups : List DocumentUses) (d : Document) : Document :=
  (groups.find? (·.document.Same d.id)).elim d (plan.edited d)

theorem changed_id (groups : List DocumentUses) (d : Document) : (plan.changed groups d).id = d.id := by
  unfold changed
  cases groups.find? (·.document.Same d.id) with
  | none => rfl
  | some group =>
    simp only [Option.elim, edited]
    split <;> rfl

theorem changed_of_not_same {groups : List DocumentUses} {d : Document}
    (other : ∀ group ∈ groups, ¬group.document.Same d.id) : plan.changed groups d = d := by
  rw [changed, List.find?_eq_none.mpr (by simpa using other)]
  rfl

theorem changed_of_same {groups : List DocumentUses} {d : Document} {group : DocumentUses}
    (distinct : groups.Pairwise fun a b => ¬b.document.Same a.document) (member : group ∈ groups)
    (same : group.document.Same d.id) : plan.changed groups d = plan.edited d group := by
  obtain ⟨front, back, rfl⟩ := List.append_of_mem member
  have earlier : ∀ other ∈ front, ¬other.document.Same d.id := by
    intro other inside equal
    have apart := (List.pairwise_append.mp distinct).2.2 other inside group (List.mem_cons_self ..)
    exact apart (same.trans equal.symm)
  rw [changed, List.find?_append, List.find?_eq_none.mpr (by simpa using earlier), Option.none_or,
    List.find?_cons_of_pos (by simpa using same)]
  rfl

private theorem changed_cons {group : DocumentUses} {groups : List DocumentUses} {d : Document}
    (fresh : ∀ other ∈ groups, ¬other.document.Same group.document) :
    plan.changed groups (plan.changed [group] d) = plan.changed (group :: groups) d := by
  by_cases same : group.document.Same d.id
  · have here : plan.changed (group :: groups) d = plan.edited d group := by simp [changed, same]
    have alone : plan.changed [group] d = plan.edited d group := by simp [changed, same]
    rw [here, ← alone]
    refine plan.changed_of_not_same fun other member equal => fresh other member ?_
    rw [changed_id] at equal
    exact equal.trans same.symm
  · have kept : plan.changed [group] d = d := by simp [changed, same]
    rw [kept]
    simp [changed, same]

private theorem exists_changeDocument {s : Solution} (valid : WellFormed s) (distinct : s.Distinct)
    (group : DocumentUses) :
    ∃ t, plan.changeDocument s group = .ok t ∧ t.documents = s.documents.map (plan.changed [group]) := by
  have kept : ∀ documents : List Document, (∀ d ∈ documents, plan.changed [group] d = d) →
      documents.map (plan.changed [group]) = documents := by
    intro documents unchanged
    rw [List.map_congr_left unchanged, List.map_id']
  rw [changeDocument_eq]
  cases found : s.document? group.document with
  | none =>
    refine ⟨s, rfl, (kept _ fun d member => plan.changed_of_not_same ?_).symm⟩
    intro other single same
    obtain rfl := List.mem_singleton.mp single
    rw [valid.document?_of_mem distinct member same.symm] at found
    cases found
  | some document =>
    have whole := found
    rw [valid.document?_eq_find?] at whole
    have named : document.id.Same group.document := by simpa using List.find?_some whole
    have others : ∀ d ∈ s.documents, d ≠ document → plan.changed [group] d = d := by
      intro d member different
      refine plan.changed_of_not_same fun other single same => different ?_
      obtain rfl := List.mem_singleton.mp single
      exact distinct.eq_of_same member (List.mem_of_find?_eq_some whole) (same.symm.trans named.symm)
    have here : plan.changed [group] document = plan.edited document group :=
      plan.changed_of_same (by simp) (List.mem_singleton_self _) named.symm
    by_cases same : plan.rewritten document.text group = document.text
    · refine ⟨s, if_pos same, (kept _ fun d member => ?_).symm⟩
      by_cases this : d = document
      · rw [this, here, edited, if_pos same]
      · exact others d member this
    · obtain ⟨t, edit⟩ := valid.exists_withText found (plan.rewritten document.text group)
      refine ⟨t, ?_, ?_⟩
      · simp only [if_neg same, edit]
        rfl
      · obtain ⟨front, d, back, parts, skipped, hit, made, -⟩ := valid.withText_documents edit
        have twice := distinct
        rw [Solution.Distinct, parts, List.map_append, List.map_cons, List.nodup_append, List.nodup_cons] at twice
        obtain rfl : d = document := by
          refine distinct.eq_of_same ?_ (List.mem_of_find?_eq_some whole) (hit.trans named.symm)
          simp [parts]
        have before : ∀ e ∈ front, plan.changed [group] e = e := by
          intro e member
          refine plan.changed_of_not_same fun other single equal => skipped e member ?_
          obtain rfl := List.mem_singleton.mp single
          exact equal.symm
        have behind : ∀ e ∈ back, plan.changed [group] e = e := by
          intro e member
          refine plan.changed_of_not_same fun other single equal => twice.2.1.1 ?_
          obtain rfl := List.mem_singleton.mp single
          exact List.mem_map.mpr ⟨e, member, equal.symm.trans hit.symm⟩
        rw [made, parts, List.map_append, List.map_cons, kept front before, kept back behind, here, edited,
          if_neg same]

/-- A whole change never fails, and changes each document by the group that it heads. -/
theorem exists_change {s : Solution} (valid : WellFormed s) (distinct : s.Distinct) {groups : List DocumentUses}
    (apart : groups.Pairwise fun a b => ¬b.document.Same a.document) :
    ∃ t, plan.change s groups = .ok t ∧ t.documents = s.documents.map (plan.changed groups) := by
  induction groups generalizing s with
  | nil =>
    have kept : s.documents.map (plan.changed []) = s.documents.map id :=
      List.map_congr_left fun d _ => plan.changed_of_not_same (by simp)
    exact ⟨s, rfl, by rw [kept, List.map_id]⟩
  | cons group rest ih =>
    obtain ⟨fresh, apart⟩ := List.pairwise_cons.mp apart
    obtain ⟨u, step, first⟩ := plan.exists_changeDocument valid distinct group
    obtain ⟨outline, index, -⟩ := changeDocument_eq_ok valid step
    have still : u.Distinct := by
      rw [Solution.Distinct, first, List.map_map]
      simp only [Function.comp_def, changed_id]
      exact distinct
    obtain ⟨t, later, second⟩ := ih (valid.of_outline outline index) still apart
    refine ⟨t, ?_, ?_⟩
    · rw [change, List.foldlM_cons, step]
      exact later
    · rw [second, first, List.map_map]
      exact List.map_congr_left fun d _ => plan.changed_cons fresh

end Plan

theorem WellFormed.document?_changed {s t : Solution} (valid : WellFormed s) (after : WellFormed t) {plan : Plan}
    {groups : List DocumentUses} (documents : t.documents = s.documents.map (plan.changed groups))
    (id : DocumentId) : t.document? id = (s.document? id).map (plan.changed groups) := by
  rw [after.document?_eq_find?, valid.document?_eq_find?, documents, List.find?_map]
  simp only [Function.comp_def, Plan.changed_id]

end CrossRef
