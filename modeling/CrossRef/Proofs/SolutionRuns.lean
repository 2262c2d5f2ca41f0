import CrossRef.Solution.Basic
import Mathlib.Data.List.Nodup

/-! The solutions that can come up: built from files or from projects of other solutions, then edited any number of
times. Edits never move a document, so whatever depends on the outline of a solution alone holds along every run. -/

namespace CrossRef

theorem bind_eq_ok {ε α β : Type} {x : Except ε α} {next : α → Except ε β} {result : β}
    (success : (x >>= next) = .ok result) : ∃ value, x = .ok value ∧ next value = .ok result := by
  cases x with
  | error e => cases success
  | ok value => exact ⟨value, rfl, success⟩

/-- What each project has, be it new or taken from a solution that has been edited: its documents are its own, with the
index of their lines. Nothing is said about versions, which a project taken from a solution brings along. -/
def Project.Sound (p : Project) : Prop :=
  ∀ d ∈ p.documents, d.id.project = p.id ∧ d.lines = LineIndex.ofText d.text

instance (p : Project) : Decidable p.Sound :=
  inferInstanceAs (Decidable (∀ d ∈ p.documents, d.id.project = p.id ∧ d.lines = LineIndex.ofText d.text))

/-- A solution that was built and then edited. -/
inductive Reachable : Solution → Prop where
  | built {projects : List Project} {s : Solution} (sound : ∀ p ∈ projects, p.Sound)
      (success : Solution.build projects = .ok s) : Reachable s
  | edited {s t : Solution} {id : DocumentId} {text : String}
      (run : Reachable s) (success : s.withText id text = .ok t) : Reachable t

/-- Everything about a project but the contents of its documents. -/
structure Project.Outline where
  id : ProjectId
  configuration : Configuration
  documents : List DocumentId
deriving DecidableEq

def Project.outline (p : Project) : Project.Outline :=
  ⟨p.id, p.configuration, p.documents.map (·.id)⟩

def Solution.outline (s : Solution) : List Project.Outline :=
  s.projects.map Project.outline

/-- What the index of paths, the look-up of documents and their editing rely on. -/
structure WellFormed (s : Solution) : Prop where
  ids : (s.projects.map (·.id)).Nodup
  owned : ∀ p ∈ s.projects, ∀ d ∈ p.documents, d.id.project = p.id
  index : s.index = PathIndex.ofProjects s.projects

namespace Solution

private theorem editFirst_eq_some {id : DocumentId} {text : String} {documents changed : List Document}
    (edit : editFirst id text documents = some changed) :
    ∃ before d after, documents = before ++ d :: after ∧ (∀ e ∈ before, ¬e.id.Same id) ∧ d.id.Same id ∧
      changed = before ++ d.withText text :: after := by
  induction documents generalizing changed with
  | nil => cases edit
  | cons first rest ih =>
    rw [editFirst] at edit
    split at edit
    · rename_i same
      cases edit
      exact ⟨[], first, rest, rfl, by simp, same, rfl⟩
    · rename_i other
      obtain ⟨tail, found, rfl⟩ := Option.map_eq_some_iff.mp edit
      obtain ⟨before, d, after, rfl, skipped, same, rfl⟩ := ih found
      refine ⟨first :: before, d, after, rfl, ?_, same, rfl⟩
      intro e member
      rcases List.mem_cons.mp member with rfl | inside
      · exact other
      · exact skipped e inside

private theorem editProjects_eq_ok {id : DocumentId} {text : String} {projects changed : List Project}
    (edit : editProjects id text projects = .ok changed) :
    ∃ before p after documents, projects = before ++ p :: after ∧ (∀ q ∈ before, q.id ≠ id.project) ∧
      p.id = id.project ∧ editFirst id text p.documents = some documents ∧
      changed = before ++ p.withDocuments documents :: after := by
  induction projects generalizing changed with
  | nil => cases edit
  | cons first rest ih =>
    rw [editProjects] at edit
    split at edit
    · rename_i same
      split at edit
      · rename_i documents found
        cases edit
        exact ⟨[], first, rest, documents, rfl, by simp, same, found, rfl⟩
      · cases edit
    · rename_i other
      cases found : editProjects id text rest with
      | error e =>
        rw [found] at edit
        cases edit
      | ok tail =>
        rw [found] at edit
        cases edit
        obtain ⟨before, p, after, documents, rfl, skipped, same, inner, rfl⟩ := ih found
        refine ⟨first :: before, p, after, documents, rfl, ?_, same, inner, rfl⟩
        intro q member
        rcases List.mem_cons.mp member with rfl | inside
        · exact other
        · exact skipped q inside

/-- An edit changes the first document that its id names, and counts. -/
theorem withText_eq_ok {s t : Solution} {id : DocumentId} {text : String} (edit : s.withText id text = .ok t) :
    ∃ before p after front d back, s.projects = before ++ p :: after ∧ (∀ q ∈ before, q.id ≠ id.project) ∧
      p.id = id.project ∧ p.documents = front ++ d :: back ∧ (∀ e ∈ front, ¬e.id.Same id) ∧ d.id.Same id ∧
      t = ⟨before ++ p.withDocuments (front ++ d.withText text :: back) :: after, s.index, s.version + 1⟩ := by
  obtain ⟨projects, found, made⟩ := bind_eq_ok edit
  cases made
  obtain ⟨before, p, after, documents, whole, skipped, same, inner, rfl⟩ := editProjects_eq_ok found
  obtain ⟨front, d, back, parts, earlier, hit, rfl⟩ := editFirst_eq_some inner
  exact ⟨before, p, after, front, d, back, whole, skipped, same, parts, earlier, hit, rfl⟩

theorem withText_outline {s t : Solution} {id : DocumentId} {text : String} (edit : s.withText id text = .ok t) :
    t.outline = s.outline := by
  obtain ⟨before, p, after, front, d, back, whole, -, -, parts, -, -, rfl⟩ := withText_eq_ok edit
  simp [outline, Project.outline, whole, parts, Project.withDocuments, Project.ofDocuments, Document.withText,
    Document.ofText]

theorem withText_index {s t : Solution} {id : DocumentId} {text : String} (edit : s.withText id text = .ok t) :
    t.index = s.index := by
  obtain ⟨before, p, after, front, d, back, -, -, -, -, -, -, rfl⟩ := withText_eq_ok edit
  rfl

theorem map_id_documents (s : Solution) : s.documents.map (·.id) = s.outline.flatMap (·.documents) := by
  simp [documents, outline, Project.outline, List.flatMap_map, List.map_flatMap]

end Solution

private theorem PathIndex.ofProjects_eq (projects : List Project) :
    ofProjects projects = ((projects.flatMap (·.documents)).map (·.id)).foldl insert [] := by
  rw [ofProjects, List.foldl_map]

namespace WellFormed

/-- The invariant speaks of nothing but the outline and the index. -/
theorem of_outline {s t : Solution} (valid : WellFormed s) (outline : t.outline = s.outline)
    (index : t.index = s.index) : WellFormed t := by
  have ids : t.projects.map (·.id) = s.projects.map (·.id) := by
    have := congrArg (List.map Project.Outline.id) outline
    simpa [Solution.outline, Project.outline, Function.comp_def] using this
  refine ⟨ids ▸ valid.ids, ?_, ?_⟩
  · intro p member d inside
    have placed : p.outline ∈ s.outline := outline ▸ List.mem_map_of_mem member
    obtain ⟨q, known, same⟩ := List.mem_map.mp placed
    have documents : q.documents.map (·.id) = p.documents.map (·.id) := congrArg Project.Outline.documents same
    have listed : d.id ∈ q.documents.map (·.id) := documents ▸ List.mem_map_of_mem inside
    obtain ⟨e, member, equal⟩ := List.mem_map.mp listed
    rw [← equal, valid.owned q known e member]
    exact congrArg Project.Outline.id same
  · rw [index, valid.index, PathIndex.ofProjects_eq, PathIndex.ofProjects_eq]
    have same := (s.map_id_documents.trans (congrArg _ outline.symm)).trans t.map_id_documents.symm
    exact congrArg _ same

theorem withText {s t : Solution} {id : DocumentId} {text : String} (valid : WellFormed s)
    (edit : s.withText id text = .ok t) : WellFormed t :=
  valid.of_outline (Solution.withText_outline edit) (Solution.withText_index edit)

end WellFormed

namespace Solution

theorem mem_of_insertProject? {project : Project} {sorted out : List Project}
    (inserted : insertProject? project sorted = some out) (p : Project) :
    p ∈ out ↔ p = project ∨ p ∈ sorted := by
  induction sorted generalizing out with
  | nil =>
    cases inserted
    simp
  | cons first rest ih =>
    rw [insertProject?] at inserted
    split at inserted
    · cases inserted
      simp
    · cases inserted
    · obtain ⟨tail, found, rfl⟩ := Option.map_eq_some_iff.mp inserted
      simp only [List.mem_cons, ih found]
      tauto

def Sorted (projects : List Project) : Prop :=
  projects.Pairwise fun p q => compare p.id q.id = .lt

private theorem sorted_insertProject? {project : Project} {sorted out : List Project} (order : Sorted sorted)
    (inserted : insertProject? project sorted = some out) : Sorted out := by
  induction sorted generalizing out with
  | nil =>
    cases inserted
    simp [Sorted]
  | cons first rest ih =>
    obtain ⟨below, order⟩ := List.pairwise_cons.mp order
    rw [insertProject?] at inserted
    split at inserted
    · rename_i less
      cases inserted
      refine List.pairwise_cons.mpr ⟨?_, List.pairwise_cons.mpr ⟨below, order⟩⟩
      intro q member
      rcases List.mem_cons.mp member with rfl | inside
      · exact less
      · exact Std.TransCmp.lt_trans less (below q inside)
    · cases inserted
    · rename_i greater
      obtain ⟨tail, found, rfl⟩ := Option.map_eq_some_iff.mp inserted
      refine List.pairwise_cons.mpr ⟨?_, ih order found⟩
      intro q member
      rcases (mem_of_insertProject? found q).mp member with rfl | inside
      · exact Std.OrientedCmp.gt_iff_lt.mp greater
      · exact below q inside

theorem Sorted.nodup {projects : List Project} (order : Sorted projects) : (projects.map (·.id)).Nodup := by
  refine List.pairwise_map.mpr (order.imp ?_)
  intro p q less same
  have equal : compare p.id q.id = .eq := same ▸ Std.ReflCmp.compare_self
  rw [equal] at less
  cases less

private theorem foldlM_insert {step : List Project → Project → Except SolutionError (List Project)}
    (inserts : ∀ sorted project longer, step sorted project = .ok longer → insertProject? project sorted = some longer)
    {more sorted out : List Project} (order : Sorted sorted) (done : more.foldlM step sorted = .ok out) :
    Sorted out ∧ ∀ p ∈ out, p ∈ sorted ∨ p ∈ more := by
  induction more generalizing sorted with
  | nil =>
    cases done
    exact ⟨order, fun p member => .inl member⟩
  | cons project more ih =>
    rw [List.foldlM_cons] at done
    obtain ⟨longer, one, rest⟩ := bind_eq_ok done
    have inserted := inserts _ _ _ one
    obtain ⟨ordered, known⟩ := ih (sorted_insertProject? order inserted) rest
    refine ⟨ordered, fun p member => ?_⟩
    rcases known p member with old | new
    · rcases (mem_of_insertProject? inserted p).mp old with rfl | old
      · exact .inr (List.mem_cons_self ..)
      · exact .inl old
    · exact .inr (List.mem_cons_of_mem _ new)

theorem build_eq_ok {projects : List Project} {s : Solution} (success : build projects = .ok s) :
    Sorted s.projects ∧ (∀ p ∈ s.projects, p ∈ projects) ∧ s.index = PathIndex.ofProjects s.projects := by
  obtain ⟨sorted, inserted, made⟩ := bind_eq_ok success
  split at made
  · cases made
  · cases made
    obtain ⟨order, known⟩ := foldlM_insert (fun sorted project longer one => by
      cases found : insertProject? project sorted <;> simp_all) List.Pairwise.nil inserted
    exact ⟨order, fun p member => (known p member).resolve_left List.not_mem_nil, rfl⟩

end Solution

private theorem Solution.sound_withText {s t : Solution} (sound : ∀ p ∈ s.projects, p.Sound) {id : DocumentId}
    {text : String} (edit : s.withText id text = .ok t) : ∀ p ∈ t.projects, p.Sound := by
  obtain ⟨before, p, after, front, d, back, whole, -, -, parts, -, -, rfl⟩ := withText_eq_ok edit
  rw [whole, List.forall_mem_append, List.forall_mem_cons] at sound
  obtain ⟨earlier, here, later⟩ := sound
  rw [Project.Sound, parts, List.forall_mem_append, List.forall_mem_cons] at here
  obtain ⟨left, ⟨owned, -⟩, right⟩ := here
  have edited : (p.withDocuments (front ++ d.withText text :: back)).Sound :=
    List.forall_mem_append.mpr ⟨left, List.forall_mem_cons.mpr ⟨⟨owned, rfl⟩, right⟩⟩
  exact List.forall_mem_append.mpr ⟨earlier, List.forall_mem_cons.mpr ⟨edited, later⟩⟩

/-- The projects of a solution that has been edited can be used to build another one. -/
theorem Reachable.sound {s : Solution} (run : Reachable s) : ∀ p ∈ s.projects, p.Sound := by
  induction run with
  | built sound success =>
    obtain ⟨-, known, -⟩ := Solution.build_eq_ok success
    exact fun p member => sound p (known p member)
  | edited _ success sound => exact Solution.sound_withText sound success

/-- The invariant holds along every run. -/
theorem Reachable.wellFormed {s : Solution} (run : Reachable s) : WellFormed s := by
  induction run with
  | built sound success =>
    obtain ⟨order, known, index⟩ := Solution.build_eq_ok success
    exact ⟨order.nodup, fun p member d inside => (sound p (known p member) d inside).1, index⟩
  | edited _ success valid => exact valid.withText success

namespace PathIndex

private theorem get_insert (index : PathIndex) (id : DocumentId) (path : Path) :
    (insert index id).get path = if id.path.Same path then index.get path ++ [id] else index.get path := by
  induction index with
  | nil => by_cases same : id.path.Same path <;> simp [insert, get, same]
  | cons entry rest ih =>
    obtain ⟨known, ids⟩ := entry
    rw [insert]
    by_cases here : known.Same id.path
    · by_cases same : id.path.Same path
      · simp [get, here, same, here.trans same]
      · have other : ¬known.Same path := fun equal => same (here.symm.trans equal)
        simp [get, here, same, other]
    · by_cases found : known.Same path
      · have other : ¬id.path.Same path := fun equal => here (found.trans equal.symm)
        simp [get, here, found, other]
      · simpa [get, here, found] using ih

private theorem get_ofProjects (projects : List Project) (path : Path) :
    (ofProjects projects).get path =
      ((projects.flatMap (·.documents)).map (·.id)).filter (·.path.Same path) := by
  rw [ofProjects_eq]
  generalize (projects.flatMap (·.documents)).map (·.id) = ids
  suffices adding : ∀ index : PathIndex,
      (ids.foldl insert index).get path = index.get path ++ ids.filter (·.path.Same path) from adding []
  induction ids with
  | nil => simp
  | cons id ids ih =>
    intro index
    rw [List.foldl_cons, ih, get_insert]
    by_cases same : id.path.Same path <;> simp [same]

end PathIndex

namespace WellFormed

variable {s : Solution} (valid : WellFormed s)

include valid

theorem documentsOf_eq (path : Path) :
    s.documentsOf path = (s.documents.map (·.id)).filter (·.path.Same path) := by
  rw [Solution.documentsOf, valid.index, PathIndex.get_ofProjects]
  rfl

theorem mem_projectsContaining {path : Path} {id : ProjectId} :
    id ∈ s.projectsContaining path ↔ ∃ p ∈ s.projects, p.id = id ∧ ∃ d ∈ p.documents, d.path.Same path := by
  simp only [Solution.projectsContaining, valid.documentsOf_eq, List.mem_map, List.mem_filter,
    Solution.documents, List.mem_flatMap, decide_eq_true_eq]
  constructor
  · rintro ⟨_, ⟨⟨d, ⟨p, member, inside⟩, rfl⟩, same⟩, rfl⟩
    exact ⟨p, member, (valid.owned p member d inside).symm, d, inside, same⟩
  · rintro ⟨p, member, rfl, d, inside, same⟩
    exact ⟨d.id, ⟨⟨d, ⟨p, member, inside⟩, rfl⟩, same⟩, valid.owned p member d inside⟩

theorem project?_of_mem {p : Project} (member : p ∈ s.projects) : s.project? p.id = some p := by
  rw [Solution.project?, List.find?_eq_some_iff_append]
  obtain ⟨before, after, whole⟩ := List.append_of_mem member
  refine ⟨by simp, before, after, whole, ?_⟩
  intro q earlier
  have distinct := valid.ids
  rw [whole, List.map_append, List.map_cons, List.nodup_append] at distinct
  have differ := distinct.2.2 q.id (List.mem_map_of_mem earlier) p.id (List.mem_cons_self ..)
  simpa using differ

theorem eq_of_id {p q : Project} (first : p ∈ s.projects) (second : q ∈ s.projects) (same : p.id = q.id) : p = q := by
  have found := valid.project?_of_mem first
  rw [same, valid.project?_of_mem second] at found
  exact (Option.some.inj found).symm

theorem document?_eq_find? (id : DocumentId) : s.document? id = s.documents.find? (·.id.Same id) := by
  have outside : ∀ p ∈ s.projects, p.id ≠ id.project → p.documents.find? (·.id.Same id) = none := by
    intro p member other
    refine List.find?_eq_none.mpr fun d inside => ?_
    intro same
    have owners := congrArg Prod.fst (of_decide_eq_true same)
    exact other ((valid.owned p member d inside).symm.trans owners)
  have within : ∀ p ∈ s.projects, p.id = id.project →
      p.documents.find? (·.id.Same id) = p.document? id.path := by
    intro p member same
    rw [Project.document?, ← List.head?_filter, ← List.head?_filter]
    refine congrArg List.head? (List.filter_congr fun d inside => decide_eq_decide.mpr ?_)
    simp [DocumentId.Same, DocumentId.key, valid.owned p member d inside, same, Path.Same, Document.path]
  have distinct := valid.ids
  rw [Solution.document?, Solution.project?, Solution.documents, List.find?_flatMap]
  generalize s.projects = projects at outside within distinct
  induction projects with
  | nil => rfl
  | cons p rest ih =>
    rw [List.map_cons, List.nodup_cons] at distinct
    have later := ih (fun q member => outside q (List.mem_cons_of_mem _ member))
      (fun q member => within q (List.mem_cons_of_mem _ member)) distinct.2
    by_cases same : p.id = id.project
    · have nothing : rest.findSome? (fun q => q.documents.find? (·.id.Same id)) = none := by
        refine List.findSome?_eq_none_iff.mpr fun q member => ?_
        refine outside q (List.mem_cons_of_mem _ member) fun equal => distinct.1 ?_
        exact same.trans equal.symm ▸ List.mem_map_of_mem member
      rw [List.find?_cons_of_pos (by simpa using same), List.findSome?_cons, nothing,
        within p (List.mem_cons_self ..) same]
      cases found : p.document? id.path <;> simp [found]
    · rw [List.find?_cons_of_neg (by simpa using same), later, List.findSome?_cons,
        outside p (List.mem_cons_self ..) same]

theorem withText_documents {t : Solution} {id : DocumentId} {text : String} (edit : s.withText id text = .ok t) :
    ∃ front d back, s.documents = front ++ d :: back ∧ (∀ e ∈ front, ¬e.id.Same id) ∧ d.id.Same id ∧
      t.documents = front ++ d.withText text :: back ∧ t.version = s.version + 1 := by
  obtain ⟨before, p, after, front, d, back, whole, skipped, -, parts, earlier, hit, rfl⟩ :=
    Solution.withText_eq_ok edit
  refine ⟨before.flatMap (·.documents) ++ front, d, back ++ after.flatMap (·.documents), ?_, ?_, hit, ?_, rfl⟩
  · simp [Solution.documents, whole, parts]
  · intro e member same
    rcases List.mem_append.mp member with other | inside
    · obtain ⟨q, listed, among⟩ := List.mem_flatMap.mp other
      have owned := valid.owned q (whole ▸ List.mem_append_left _ listed) e among
      exact skipped q listed (owned.symm.trans (congrArg Prod.fst same))
    · exact earlier e inside same
  · simp [Solution.documents, Project.withDocuments, Project.ofDocuments]

theorem exists_withText {id : DocumentId} {d : Document} (found : s.document? id = some d) (text : String) :
    ∃ t, s.withText id text = .ok t := by
  have editable : ∀ documents : List Document, (∃ e ∈ documents, e.id.Same id) →
      ∃ changed, Solution.editFirst id text documents = some changed := by
    intro documents
    induction documents with
    | nil => simp
    | cons first rest ih =>
      rintro ⟨e, member, same⟩
      rw [Solution.editFirst]
      split
      · exact ⟨_, rfl⟩
      · rename_i other
        rcases List.mem_cons.mp member with rfl | inside
        · exact absurd same other
        · obtain ⟨changed, made⟩ := ih ⟨e, inside, same⟩
          exact ⟨first :: changed, by rw [made]; rfl⟩
  obtain ⟨p, present, inside⟩ := Option.bind_eq_some_iff.mp found
  have listed : ∃ e ∈ p.documents, e.id.Same id := by
    refine ⟨d, List.mem_of_find?_eq_some inside, ?_⟩
    have member := List.mem_of_find?_eq_some present
    have owned := valid.owned p member d (List.mem_of_find?_eq_some inside)
    have owner : p.id = id.project := by simpa using List.find?_some present
    have path : d.path.Same id.path := by simpa using List.find?_some inside
    exact Prod.ext (owned.trans owner) path
  obtain ⟨documents, made⟩ := editable p.documents listed
  have whole : ∃ projects, Solution.editProjects id text s.projects = .ok projects := by
    rw [Solution.project?] at present
    generalize s.projects = projects at present
    induction projects with
    | nil => cases present
    | cons first rest ih =>
      rw [Solution.editProjects]
      by_cases same : first.id = id.project
      · rw [List.find?_cons_of_pos (by simpa using same)] at present
        cases present
        exact ⟨_, by rw [if_pos same, made]⟩
      · rw [List.find?_cons_of_neg (by simpa using same)] at present
        obtain ⟨projects, edited⟩ := ih present
        exact ⟨first :: projects, by rw [if_neg same, edited]; rfl⟩
  obtain ⟨projects, edited⟩ := whole
  exact ⟨_, by rw [Solution.withText, edited]; rfl⟩

end WellFormed

theorem Solution.mem_of_project? {s : Solution} {id : ProjectId} {p : Project} (found : s.project? id = some p) :
    p ∈ s.projects ∧ p.id = id :=
  ⟨List.mem_of_find?_eq_some found, by simpa using List.find?_some found⟩

namespace Sample

/-! Two projects, of which one uses what the other one declares. -/

def library : Document := .ofText ⟨"Lib", .ofText "lib.ml"⟩ "let a = 1"

def client : Document := .ofText ⟨"App", .ofText "app.ml"⟩ "let b = a"

def lib : Project := .ofDocuments "Lib" ⟨[], []⟩ [library]

def app : Project := .ofDocuments "App" ⟨[], ["Lib"]⟩ [client]

def solution : Solution := ⟨[app, lib], .ofProjects [app, lib], 0⟩

theorem reachable : Reachable solution := by
  have success : Solution.build [lib, app] = .ok solution := by decide
  exact .built (by decide) success

/-! Four projects. Two of them stand between the top and the base, and the base refers to itself and to the top. -/

def referring (id : ProjectId) (references : List ProjectId) : Project :=
  .ofFiles id ⟨[], references⟩ []

def corners : List Project :=
  [referring "Base" ["Base", "Top"], referring "Left" ["Base"], referring "Right" ["Base"],
    referring "Top" ["Left", "Right"]]

def diamond : Solution := ⟨corners, .ofProjects corners, 0⟩

theorem diamond_reachable : Reachable diamond := by
  have success : Solution.build corners = .ok diamond := by decide
  exact .built (by decide) success

end Sample

end CrossRef
