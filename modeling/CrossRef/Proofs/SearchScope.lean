import CrossRef.Proofs.ResolutionOrder
import CrossRef.Proofs.SolutionRuns
import CrossRef.Search.Visibility

/-! Where uses can be. A check of a project sees the files of the project and those of the projects that it
refers to directly, and nothing else. So a project that reports a use of a symbol either lists the declaring
file or refers to a project that does, and both are searched. -/

namespace CrossRef
open Check

def Project.analysis (p : Project) (d : Document) : Analysis :=
  Analysis.ofText d.path d.text p.configuration.defines

def Project.analyses (p : Project) : List Analysis :=
  p.documents.map p.analysis

/-- The projects whose names a project sees. One that refers to itself gains nothing. -/
def Solution.referenced (s : Solution) (p : Project) : List Project :=
  p.configuration.references.filterMap fun id => if id = p.id then none else s.project? id

namespace Solution

private theorem analyses_options (p : Project) (references : List Options) :
    Environment.analyses (p.options references) = p.analyses := by
  simp [Environment.analyses, Project.options, Project.analyses, Project.analysis]

private theorem optionsBelow_analyses {s : Solution} {p : Project} (member : p ∈ s.projects) {depth : Nat}
    (deep : s.projects.length = depth + 1) (id : ProjectId) :
    (s.optionsBelow depth [p.id] id).map Environment.analyses =
      (if id = p.id then none else s.project? id).map Project.analyses := by
  cases depth with
  | zero =>
    obtain ⟨q, single⟩ := List.length_eq_one_iff.mp deep
    rw [single, List.mem_singleton] at member
    subst member
    by_cases same : id = p.id
    · simp [optionsBelow, same]
    · simp [optionsBelow, project?, single, same, Ne.symm same]
  | succ depth =>
    rw [optionsBelow]
    cases found : s.project? id with
    | none => simp
    | some q => by_cases same : id = p.id <;> simp [same, analyses_options]

theorem options?_eq_some {s : Solution} {id : ProjectId} {options : Options} (found : s.options? id = some options) :
    ∃ p, s.project? id = some p ∧ options.defines = p.configuration.defines ∧
      options.files = p.documents.map (fun d => ⟨d.path, d.version, d.text⟩) ∧
      Environment.analyses options = p.analyses ∧
      options.references.flatMap Environment.analyses = (s.referenced p).flatMap Project.analyses := by
  unfold options? at found
  cases deep : s.projects.length with
  | zero =>
    rw [deep] at found
    cases found
  | succ depth =>
    rw [deep, optionsBelow] at found
    cases present : s.project? id with
    | none =>
      rw [present] at found
      cases found
    | some p =>
      rw [present] at found
      cases found
      obtain ⟨member, rfl⟩ := mem_of_project? present
      refine ⟨p, rfl, rfl, rfl, analyses_options p _, ?_⟩
      have below : ∀ id, _ := optionsBelow_analyses member deep
      simp only [Project.options, referenced]
      induction p.configuration.references with
      | nil => rfl
      | cons first rest ih =>
        have here := below first
        rw [List.filterMap_cons, List.filterMap_cons]
        cases left : s.optionsBelow depth [p.id] first <;>
          cases right : (if first = p.id then none else s.project? first) <;> simp_all

theorem options_of_mem {s : Solution} (valid : WellFormed s) {p : Project} (member : p ∈ s.projects) {options : Options}
    (found : s.options? p.id = some options) :
    options.defines = p.configuration.defines ∧ Environment.analyses options = p.analyses ∧
      options.references.flatMap Environment.analyses = (s.referenced p).flatMap Project.analyses := by
  obtain ⟨q, present, defines, -, own, references⟩ := options?_eq_some found
  obtain rfl := Option.some.inj ((valid.project?_of_mem member).symm.trans present)
  exact ⟨defines, own, references⟩

theorem exists_options {s : Solution} {id : ProjectId} {p : Project} (present : s.project? id = some p) :
    ∃ options, s.options? id = some options := by
  have inside := (mem_of_project? present).1
  unfold options?
  cases deep : s.projects.length with
  | zero => simp_all
  | succ depth => simp [optionsBelow, present]

theorem contains_of_mem {s : Solution} (valid : WellFormed s) {p : Project} (member : p ∈ s.projects) {d : Document}
    (listed : d ∈ p.documents) {options : Options} (found : s.options? p.id = some options) :
    options.contains d.path = true := by
  obtain ⟨q, present, -, files, -⟩ := options?_eq_some found
  obtain rfl := Option.some.inj ((valid.project?_of_mem member).symm.trans present)
  rw [Options.contains, files, List.any_map]
  exact List.any_eq_true.mpr ⟨d, listed, decide_eq_true (.refl _)⟩

theorem checkProject_eq {options : Options} {p : Project} (own : Environment.analyses options = p.analyses) :
    checkProject options = p.documents.flatMap fun d =>
      ((Environment.ofOptions options).resolutions (p.analysis d)).flatMap (Environment.usesOfMark d.path) := by
  have files : (Environment.ofOptions options).files = p.documents.map p.analysis := own
  simp only [checkProject, files, List.flatMap_map, Environment.uses_eq]
  rfl

private theorem reach_append (s : Solution) (steps : Nat) (queue found : List ProjectId) :
    ∃ more, s.reach steps queue found = found ++ more := by
  induction steps generalizing queue found with
  | zero => exact ⟨[], by simp [reach]⟩
  | succ steps ih =>
    cases queue with
    | nil => exact ⟨[], by simp [reach]⟩
    | cons current queue =>
      obtain ⟨more, reached⟩ := ih (queue ++ (s.referrers current).filter (!found.contains ·))
        (found ++ (s.referrers current).filter (!found.contains ·))
      refine ⟨(s.referrers current).filter (!found.contains ·) ++ more, ?_⟩
      rw [reach, reached, List.append_assoc]

theorem mem_dependents {s : Solution} {p : Project} {id : ProjectId} (member : p ∈ s.projects)
    (refers : id ∈ p.configuration.references) (other : p.id ≠ id) : p.id ∈ s.dependents id := by
  obtain ⟨more, reached⟩ := s.reach_append s.projects.length ((s.referrers id).filter (!List.contains [id] ·))
    ([id] ++ (s.referrers id).filter (!List.contains [id] ·))
  have fresh : p.id ∈ (s.referrers id).filter (!List.contains [id] ·) := by
    simp only [referrers, List.mem_filter, List.mem_map]
    exact ⟨⟨p, ⟨member, by simpa using refers⟩, rfl⟩, by simpa using other⟩
  rw [dependents, reach, List.nil_append, reached]
  simpa using Or.inl fresh

end Solution

/-- Of the projects that declare a symbol each is searched, and so are those that depend on it unless the
symbol is internal. -/
theorem Visibility.mem_searchedProjects {ids : List ProjectId} {isInternal : Bool} {s : Solution}
    {found : ProjectId} :
    found ∈ (Visibility.projects ids isInternal).searchedProjects s ↔
      ∃ owner ∈ ids, found = owner ∨ isInternal = false ∧ found ∈ s.dependents owner := by
  have kept := mem_map_distinctBy (fun project => project)
    (ids.flatMap fun owner => owner :: if isInternal then [] else s.dependents owner) found
  simp only [List.map_id_fun'] at kept
  refine kept.trans ?_
  cases isInternal <;> simp

namespace Solution

theorem origin_of_sees {s : Solution} {q : Project} {options : Options} (valid : WellFormed s) (member : q ∈ s.projects)
    (checked : s.options? q.id = some options) {path : Path} {b : Binding} (seen : Environment.Sees options path b) :
    (∃ e ∈ q.documents, ¬e.path.Same path ∧ b ∈ (q.analysis e).bindings ∧ b.symbol.isLocal = false ∧
      b.symbol.access ≠ .ownFile) ∨
    ∃ r ∈ s.referenced q, ∃ e ∈ r.documents,
      b ∈ (r.analysis e).bindings ∧ b.symbol.isLocal = false ∧ b.symbol.access = .everywhere := by
  obtain ⟨-, own, references⟩ := options_of_mem valid member checked
  cases seen with
  | sibling file known other exported =>
    rw [own] at known
    obtain ⟨e, document, rfl⟩ := List.mem_map.mp known
    obtain ⟨inside, visible⟩ := List.mem_filter.mp exported
    exact .inl ⟨e, document, other, inside, by simpa using visible⟩
  | referenced file known exported =>
    rw [references] at known
    obtain ⟨r, referred, known⟩ := List.mem_flatMap.mp known
    obtain ⟨e, document, rfl⟩ := List.mem_map.mp known
    obtain ⟨inside, visible⟩ := List.mem_filter.mp exported
    exact .inr ⟨r, referred, e, document, inside, by simpa using visible⟩

theorem origin_of_resolution {s : Solution} {q : Project} {options : Options} (valid : WellFormed s)
    (member : q ∈ s.projects) (checked : s.options? q.id = some options) {file : Analysis} {m : Mark} {b : Binding}
    (resolved : (m, some b) ∈ (Environment.ofOptions options).resolutions file) :
    b ∈ file.bindings ∨
      (∃ e ∈ q.documents, b ∈ (q.analysis e).bindings ∧ b.symbol.isLocal = false ∧ b.symbol.access ≠ .ownFile) ∨
      ∃ r ∈ s.referenced q, ∃ e ∈ r.documents,
        b ∈ (r.analysis e).bindings ∧ b.symbol.isLocal = false ∧ b.symbol.access = .everywhere := by
  rcases Environment.mem_resolutions resolved with inside | seen
  · exact .inl inside
  · rcases origin_of_sees valid member checked seen with ⟨e, document, -, shared⟩ | published
    · exact .inr (.inl ⟨e, document, shared⟩)
    · exact .inr (.inr published)

theorem mem_referenced {s : Solution} {q r : Project} (referred : r ∈ s.referenced q) :
    r ∈ s.projects ∧ r.id ∈ q.configuration.references ∧ q.id ≠ r.id := by
  obtain ⟨id, refers, found⟩ := List.mem_filterMap.mp referred
  split at found
  · cases found
  · rename_i different
    obtain ⟨listed, rfl⟩ := mem_of_project? found
    exact ⟨listed, refers, Ne.symm different⟩

theorem exists_binding {s : Solution} (valid : WellFormed s) {p : Project} (member : p ∈ s.projects) {d : Document}
    (document : d ∈ p.documents) {options : Options} (checked : s.options? p.id = some options) {m : Mark} {b : Binding}
    (resolved : (m, some b) ∈ (Environment.ofOptions options).resolutions (p.analysis d)) :
    ∃ q ∈ s.projects, ∃ e ∈ q.documents, b ∈ (q.analysis e).bindings := by
  rcases origin_of_resolution valid member checked resolved with own | ⟨e, inside, bound, -⟩ |
    ⟨r, referred, e, inside, bound, -⟩
  · exact ⟨p, member, d, document, own⟩
  · exact ⟨p, member, e, inside, bound⟩
  · exact ⟨r, (mem_referenced referred).1, e, inside, bound⟩

theorem declares_or_refers {s : Solution} (valid : WellFormed s)
    (plain : ∀ d ∈ s.documents, ':' ∉ d.path.text.toList) {q : Project} {options : Options} (member : q ∈ s.projects)
    (checked : s.options? q.id = some options) {d : Document} (document : d ∈ q.documents) {m : Mark} {c : Binding}
    (resolved : (m, some c) ∈ (Environment.ofOptions options).resolutions (q.analysis d)) {path : Path}
    (free : ':' ∉ path.text.toList) {home name : String} {ordinal : Nat}
    (same : c.symbol.id = identity path home name ordinal) :
    q.id ∈ s.projectsContaining path ∨
      ∃ r ∈ s.referenced q, r.id ∈ s.projectsContaining path ∧ c.symbol.access = .everywhere ∧
        c.symbol.isLocal = false := by
  -- The file that binds the symbol has the given path, because identities begin with it.
  have located : ∀ r ∈ s.projects, ∀ e ∈ r.documents, c ∈ (r.analysis e).bindings →
      r.id ∈ s.projectsContaining path := by
    intro r listed e inside bound
    obtain ⟨-, -, keeper, number, made, -⟩ := symbol_of_binding bound
    have paths := path_of_identity (plain e (List.mem_flatMap.mpr ⟨r, listed, inside⟩)) free (made.symm.trans same)
    exact valid.mem_projectsContaining.mpr ⟨r, listed, rfl, e, inside, paths ▸ .refl _⟩
  rcases origin_of_resolution valid member checked resolved with own | ⟨e, inside, bound, -⟩ |
    ⟨r, referred, e, inside, bound, shown, access⟩
  · exact .inl (located q member d document own)
  · exact .inl (located q member e inside bound)
  · exact .inr ⟨r, referred, located r (mem_referenced referred).1 e inside bound, access, shown⟩

end Solution

/-- Every project whose check reports a use of a symbol is searched for it. -/
theorem searches_every_use {s : Solution} (run : Reachable s) (plain : ∀ d ∈ s.documents, ':' ∉ d.path.text.toList)
    {p : Project} (owner : p ∈ s.projects) {d : Document} (declares : d ∈ p.documents) {b : Binding}
    (bound : b ∈ (Analysis.ofText d.path d.text p.configuration.defines).bindings)
    {id : ProjectId} {options : Options} (checked : s.options? id = some options)
    (reported : usesOf b.symbol (checkProject options) ≠ []) :
    id ∈ (Visibility.projects (s.projectsContaining d.path) false).searchedProjects s := by
  have valid := run.wellFormed
  obtain ⟨q, present, -, -, own, -⟩ := Solution.options?_eq_some checked
  obtain ⟨member, rfl⟩ := Solution.mem_of_project? present
  obtain ⟨u, use⟩ := List.exists_mem_of_ne_nil _ reported
  obtain ⟨use, same⟩ := List.mem_filter.mp use
  obtain ⟨file, known, inside⟩ := List.mem_flatMap.mp use
  have known : file ∈ q.analyses := own ▸ known
  obtain ⟨e, document, rfl⟩ := List.mem_map.mp known
  obtain ⟨m, c, resolved, symbol, -⟩ := Environment.mem_uses inside
  obtain ⟨-, -, home, ordinal, made, -⟩ := symbol_of_binding bound
  have equal : c.symbol.id = b.symbol.id := by rw [← symbol]; simpa using same
  refine Visibility.mem_searchedProjects.mpr ?_
  rcases Solution.declares_or_refers valid plain member checked document resolved
    (plain d (List.mem_flatMap.mpr ⟨p, owner, declares⟩)) (equal.trans made) with mine | ⟨r, referred, listed, -⟩
  · exact ⟨q.id, mine, .inl rfl⟩
  · obtain ⟨-, refers, different⟩ := Solution.mem_referenced referred
    exact ⟨r.id, listed, .inr ⟨rfl, Solution.mem_dependents member refers different⟩⟩

namespace Sample

def token : Syntax.Token := ⟨.word, ⟨4, 1⟩, 0, 4, "a"⟩

def declared : Binding :=
  ⟨symbolOf library.path "" (Tally.empty.count ("", "a")) token .value .everywhere false, token, none⟩

def neighbour : Binding :=
  let named : Syntax.Token := ⟨.word, ⟨4, 1⟩, 0, 4, "b"⟩
  ⟨symbolOf client.path "" (Tally.empty.count ("", "b")) named .value .everywhere false, named, none⟩

def reference : Reference :=
  ⟨⟨.word, ⟨8, 1⟩, 0, 8, "a"⟩, .use⟩

theorem client_resolutions :
    (Environment.ofOptions (app.options [lib.options []])).resolutions (app.analysis client) =
      [(.binding neighbour, some neighbour), (.reference reference, some declared)] := by
  have marks : (app.analysis client).marks = [.binding neighbour, .reference reference] := rfl
  have found := Environment.resolve?_eq_find? (app.options [lib.options []]) client.path [neighbour] reference
  have first : (Environment.candidates (app.options [lib.options []]) client.path [neighbour] reference.offset).find?
      (·.symbol.name = reference.name) = some declared := rfl
  rw [first] at found
  rw [Environment.resolutions, marks, ← found]
  rfl

private theorem resolved :
    (.reference reference, some declared) ∈
      (Environment.ofOptions (app.options [lib.options []])).resolutions (app.analysis client) := by
  rw [client_resolutions]
  exact List.mem_cons_of_mem _ (List.mem_cons_self ..)

theorem searches_client : "App" ∈
    (Visibility.projects (solution.projectsContaining library.path) false).searchedProjects solution := by
  have bound : declared ∈ (lib.analysis library).bindings := List.mem_singleton.mpr rfl
  have checked : solution.options? "App" = some (app.options [lib.options []]) := rfl
  obtain ⟨u, use, -⟩ := Environment.exists_reported (List.mem_singleton.mpr rfl) resolved
  exact searches_every_use reachable (by decide) (List.mem_cons_of_mem _ (List.mem_cons_self ..))
    (List.mem_cons_self ..) bound checked (List.ne_nil_of_mem use)

end Sample

end CrossRef
