import CrossRef.Proofs.FileUsesFound
import CrossRef.Proofs.PlannedTokens
import CrossRef.Proofs.RenamedResolution

/-! Renaming in a solution of one document, which may have been edited since the plan was made. Wherever the plan
searches, it locates what stands for the identity of its symbol in the document. Of these places it replaces those
that have the name of the symbol too. -/

namespace CrossRef
open Check Syntax

def Check.Mark.standsFor (name : String) (id : SymbolId) (x : Mark × Option Binding) : Bool :=
  x.2.any fun b => b.symbol.name = name ∧ b.symbol.id = id

theorem Check.Mark.standsFor_iff {name : String} {id : SymbolId} {x : Mark × Option Binding} :
    Mark.standsFor name id x = true ↔ ∃ b, x.2 = some b ∧ b.symbol.name = name ∧ b.symbol.id = id := by
  simp [Mark.standsFor, Option.any_eq_true]

def Check.Environment.standing (env : Environment) (file : Analysis) (name : String) (id : SymbolId) : List Token :=
  ((env.resolutions file).filter (Mark.standsFor name id)).map (·.1.token)

namespace Check.Environment

variable {options : Options} {path : Path} {text : String} {defines : List String} {name : String} {id : SymbolId}

theorem mem_standing {env : Environment} {file : Analysis} {t : Token} :
    t ∈ env.standing file name id ↔
      ∃ m b, (m, some b) ∈ env.resolutions file ∧ b.symbol.name = name ∧ b.symbol.id = id ∧ m.token = t := by
  simp only [standing, List.mem_map, List.mem_filter, Mark.standsFor_iff]
  constructor
  · rintro ⟨⟨m, _⟩, ⟨member, b, rfl, named, same⟩, rfl⟩
    exact ⟨m, b, member, named, same, rfl⟩
  · rintro ⟨m, b, member, named, same, rfl⟩
    exact ⟨(m, some b), ⟨member, b, rfl, named, same⟩, rfl⟩

theorem standing_sublist (env : Environment) (path : Path) (text : String) (defines : List String) (name : String)
    (id : SymbolId) :
    (env.standing (Analysis.ofText path text defines) name id).Sublist (lex text defines).tokens := by
  have order := map_token_sublist path text defines
  rw [← env.map_fst_resolutions, List.map_map] at order
  exact (List.filter_sublist.map _).trans order

private theorem accepted_of_standing {ranges : List Range} (distinct : ranges.Nodup)
    (located : ∀ r, r ∈ ranges ↔ ∃ m b, (m, some b) ∈
      (ofOptions options).resolutions (Analysis.ofText path text defines) ∧ b.symbol.id = id ∧ m.token.range = r) :
    Rename.accepted text name ranges =
      ((ofOptions options).standing (Analysis.ofText path text defines) name id).map (·.span) := by
  have order := lex_sublist text defines
  refine Rename.accepted_of_identifiers distinct ?_ ((standing_sublist ..).trans order) ?_
  · intro r listed
    obtain ⟨m, b, resolved, -, range⟩ := (located r).mp listed
    obtain ⟨token, identifier⟩ := identifier_of_mark (name_of_resolution resolved).1
    exact ⟨m.token, ⟨order.subset token, identifier⟩, range⟩
  · intro t known
    rw [mem_standing, located]
    constructor
    · rintro ⟨m, b, resolved, named, same, rfl⟩
      obtain ⟨marked, stands⟩ := name_of_resolution resolved
      exact ⟨(identifier_of_mark marked).2, ⟨m, b, resolved, same, rfl⟩, by rw [← stands, named]⟩
    · rintro ⟨-, ⟨m, b, resolved, same, range⟩, named⟩
      obtain ⟨marked, stands⟩ := name_of_resolution resolved
      obtain rfl := eq_of_range (order.subset (identifier_of_mark marked).1) known range
      exact ⟨m, b, resolved, stands.trans named, same, rfl⟩

end Check.Environment

/-- The only document of a solution, and the project that lists it. -/
structure Solution.Only (s : Solution) (p : Project) (d : Document) : Prop where
  valid : WellFormed s
  project : p ∈ s.projects
  document : d ∈ p.documents
  alone : s.documents = [d]

namespace Solution.Only

variable {s : Solution} {p : Project} {d : Document} {options : Options}

theorem member (only : s.Only p d) : d ∈ s.documents :=
  List.mem_flatMap.mpr ⟨p, only.project, only.document⟩

theorem distinct (only : s.Only p d) : s.Distinct := by
  rw [Distinct, only.alone]
  exact List.nodup_singleton _

private theorem eq_of_mem (only : s.Only p d) {q : Project} {e : Document} (listed : q ∈ s.projects)
    (inside : e ∈ q.documents) : q = p ∧ e = d := by
  have known : e ∈ s.documents := List.mem_flatMap.mpr ⟨q, listed, inside⟩
  rw [only.alone] at known
  obtain rfl := List.mem_singleton.mp known
  exact ⟨only.valid.project_unique listed only.project inside only.document, rfl⟩

private theorem not_sees (only : s.Only p d) (checked : s.options? p.id = some options) {b : Binding} :
    ¬Environment.Sees options d.path b := by
  obtain ⟨-, own, references⟩ := options_of_mem only.valid only.project checked
  intro seen
  cases seen with
  | sibling file known other exported =>
    obtain ⟨e, inside, rfl⟩ := List.mem_map.mp (own ▸ known)
    obtain ⟨-, rfl⟩ := only.eq_of_mem only.project inside
    exact other (.refl _)
  | referenced file known exported =>
    rw [references] at known
    obtain ⟨r, referred, known⟩ := List.mem_flatMap.mp known
    obtain ⟨e, inside, -⟩ := List.mem_map.mp known
    obtain ⟨listed, -, different⟩ := mem_referenced referred
    exact different (congrArg Project.id (only.eq_of_mem listed inside).1).symm

theorem foreign_eq_nil (only : s.Only p d) (checked : s.options? p.id = some options) :
    Environment.foreign options d.path = [] := by
  refine List.eq_nil_iff_forall_not_mem.mpr fun b member => ?_
  have candidate : b ∈ Environment.candidates options d.path [] 0 := by
    rw [Environment.candidates_eq]
    exact List.mem_append_right _ member
  rcases Environment.mem_candidates candidate with none | seen
  · cases none
  · exact only.not_sees checked seen

theorem bound (only : s.Only p d) (checked : s.options? p.id = some options) {m : Mark} {b : Binding}
    (stands : (m, some b) ∈ (Environment.ofOptions options).resolutions (p.analysis d)) :
    b ∈ (p.analysis d).bindings :=
  (Environment.mem_resolutions stands).resolve_right (only.not_sees checked)

theorem withText (only : s.Only p d) {text : String} {t : Solution} (edit : s.withText d.id text = .ok t) :
    t.Only (p.mapDocuments fun d => d.withText text) (d.withText text) := by
  have documents : t.documents = s.documents.map fun d => d.withText text := by
    obtain ⟨front, e, back, whole, -, -, changed, -⟩ := only.valid.withText_documents edit
    rw [only.alone] at whole ⊢
    cases front with
    | nil =>
      cases whole
      exact changed
    | cons f front => simp at whole
  have projects := projects_eq_map (withText_outline edit) documents
  refine ⟨only.valid.withText edit, ?_, List.mem_map_of_mem only.document, by rw [documents, only.alone]; rfl⟩
  rw [projects]
  exact List.mem_map_of_mem only.project

end Solution.Only

/-- Uses that stand where something in a file stands for an identity. -/
def Locates (env : Environment) (file : Analysis) (id : SymbolId) (uses : List Use) : Prop :=
  ∀ place, (∃ u ∈ uses, u.place = place) ↔
    ∃ m b, (m, some b) ∈ env.resolutions file ∧ b.symbol.id = id ∧ place = ⟨file.path, m.token.range⟩

private theorem locates_usesOf (env : Environment) (file : Analysis) (symbol : Symbol) :
    Locates env file symbol.id (usesOf symbol (env.uses file)) := by
  intro place
  constructor
  · rintro ⟨u, inside, rfl⟩
    obtain ⟨reported, same⟩ := List.mem_filter.mp inside
    obtain ⟨m, b, stands, own, place⟩ := Environment.mem_uses reported
    exact ⟨m, b, stands, own ▸ of_decide_eq_true same, place⟩
  · rintro ⟨m, b, stands, same, rfl⟩
    obtain ⟨u, reported, own, place⟩ := Environment.exists_use stands
    exact ⟨u, List.mem_filter.mpr ⟨reported, decide_eq_true (own ▸ same)⟩, place⟩

namespace Solution.Only

variable {s : Solution} {p : Project} {d : Document} {options : Options}

private theorem locates_reported (only : s.Only p d) (checked : s.options? p.id = some options) {ids : List ProjectId}
    (searched : p.id ∈ ids) (symbol : Symbol) :
    Locates (Environment.ofOptions options) (p.analysis d) symbol.id (ids.flatMap (s.reported symbol)) := by
  intro place
  constructor
  · rintro ⟨u, inside, rfl⟩
    obtain ⟨id, -, reported⟩ := List.mem_flatMap.mp inside
    obtain ⟨same, q, e, -, listed, among, settings, present, m, b, stands, own, place⟩ := mem_reported reported
    obtain ⟨rfl, rfl⟩ := only.eq_of_mem listed among
    obtain rfl := Option.some.inj (checked.symm.trans present)
    exact ⟨m, b, stands, own ▸ same, place⟩
  · intro stands
    obtain ⟨u, inside, place⟩ := (locates_usesOf _ _ symbol place).mpr stands
    have reported := reported_of_fileUses only.valid only.project only.document checked inside
    exact ⟨u, List.mem_flatMap.mpr ⟨p.id, searched, reported⟩, place⟩

/-- What a plan locates in a solution of one document, if it was made for that document. -/
theorem exists_locations (only : s.Only p d) (checked : s.options? p.id = some options) (lookup : Lookup) {plan : Plan}
    (origin : plan.document = d.id)
    (kept : d.version = plan.version → plan.fileUses = (Environment.ofOptions options).uses (p.analysis d))
    (searched : plan.visibility = .currentDocument ∨
      ∃ ids isInternal, plan.visibility = .projects ids isInternal ∧ p.id ∈ ids) :
    ∃ uses, ((Service.plain lookup).locations plan s false).run = .ok (groupByDocument (distinctPlaces uses) s) ∧
      Locates (Environment.ofOptions options) (p.analysis d) plan.symbol.id uses := by
  rcases searched with seen | ⟨ids, isInternal, seen, inside⟩
  · have found : ((Service.plain lookup).originUses plan s).run =
        .ok (some ((Environment.ofOptions options).uses (p.analysis d))) := by
      rw [Service.originUses, origin, only.valid.document?_of_mem only.distinct only.member rfl]
      by_cases same : d.version = plan.version ∧ d.text = plan.text
      · simp only [if_pos same, kept same.1]
        rfl
      · simp only [if_neg same]
        obtain ⟨_, present, shown⟩ := Service.exists_checkDocument only.valid only.project only.document lookup
        obtain rfl := Option.some.inj (checked.symm.trans present)
        exact shown
    rw [Service.locations_of_currentDocument _ seen]
    exact ⟨_, Service.run_bind_of_ok found _, locates_usesOf _ _ plan.symbol⟩
  · rw [Service.locations_of_projects _ seen, seen]
    refine ⟨_, Service.usesAcross_projects .., only.locates_reported checked ?_ plan.symbol⟩
    exact Visibility.mem_searchedProjects.mpr ⟨p.id, inside, .inl rfl⟩

/-- A plan for the only document replaces the identifiers that stand for the name and the identity of its symbol. -/
theorem exists_apply (only : s.Only p d) (checked : s.options? p.id = some options) (lookup : Lookup) {plan : Plan}
    (origin : plan.document = d.id)
    (kept : d.version = plan.version → plan.fileUses = (Environment.ofOptions options).uses (p.analysis d))
    (searched : plan.visibility = .currentDocument ∨
      ∃ ids isInternal, plan.visibility = .projects ids isInternal ∧ p.id ∈ ids) :
    ∃ t result, ((Service.plain lookup).apply { plan with strategy := .batched } s false).run = .ok t ∧
      t.documents.map (·.text) = [result] ∧
      Rename.Replaced plan.new (((Environment.ofOptions options).standing (p.analysis d) plan.symbol.name
        plan.symbol.id).map (·.span)) d.text result := by
  obtain ⟨uses, listed, locates⟩ := only.exists_locations checked lookup origin kept searched
  have located : ((Service.plain lookup).locations { plan with strategy := .batched } s false).run =
      .ok (groupByDocument (distinctPlaces uses) s) := listed
  obtain ⟨t, success, documents⟩ := Plan.exists_change { plan with strategy := .batched } only.valid only.distinct
    (pairwise_groupByDocument (distinctPlaces uses) s)
  refine ⟨t, _, (Service.apply_plain located).trans success, by rw [documents, only.alone]; rfl, ?_⟩
  have accepted : Rename.accepted d.text plan.symbol.name (d.rangesOf uses) =
      ((Environment.ofOptions options).standing (p.analysis d) plan.symbol.name plan.symbol.id).map (·.span) := by
    refine Environment.accepted_of_standing (nodup_ranges d uses) fun r => ?_
    rw [Document.mem_rangesOf]
    constructor
    · rintro ⟨u, inside, -, rfl⟩
      obtain ⟨m, b, stands, same, place⟩ := (locates u.place).mp ⟨u, inside, rfl⟩
      exact ⟨m, b, stands, same, by rw [place]⟩
    · rintro ⟨m, b, stands, same, rfl⟩
      obtain ⟨u, inside, place⟩ := (locates ⟨d.path, m.token.range⟩).mpr ⟨m, b, stands, same, rfl⟩
      exact ⟨u, inside, by rw [place]; exact .refl _, by rw [place]⟩
  exact accepted ▸ plan.replaced_changed only.valid only.distinct uses only.member

/-- What a plan for the only document is about: a binding of the document, looked for in the project if not in the
document alone. -/
theorem symbol_of_plan (only : s.Only p d) {lookup : Lookup} {span : Span} {strategy : Rename.Strategy}
    {change : String → String} {plan : Plan}
    (made : ((Service.plain lookup).plan s d span strategy change).run = .ok (some plan)) :
    (∃ b ∈ (p.analysis d).bindings, b.symbol = plan.symbol) ∧
      (plan.visibility = .currentDocument ∨
        ∃ ids isInternal, plan.visibility = .projects ids isInternal ∧ p.id ∈ ids) := by
  obtain ⟨options, planned⟩ := Service.plan_eq_ok made
  have checked := planned.present
  rw [only.valid.owned p only.project d only.document] at checked
  obtain ⟨u, reported, symbol⟩ := planned.reported
  rw [planned.uses, (options_of_mem only.valid only.project checked).1] at reported
  obtain ⟨m, b, stands, own, -⟩ := Environment.mem_uses reported
  have bound : b ∈ (p.analysis d).bindings := only.bound checked stands
  have seen := planned.visible
  rw [← symbol, own] at seen ⊢
  refine ⟨⟨b, bound, rfl⟩, ?_⟩
  cases closed : b.symbol.isPrivateToFile with
  | true =>
    rw [visibility?_of_private bound closed] at seen
    exact .inl (Option.some.inj seen).symm
  | false =>
    rw [visibility?_of_shown only.valid only.project only.document bound closed] at seen
    have owner : p.id ∈ s.projectsContaining d.path :=
      only.valid.mem_projectsContaining.mpr ⟨p, only.project, rfl, d, only.document, .refl _⟩
    exact .inr ⟨_, _, (Option.some.inj seen).symm, owner⟩

theorem exists_apply_of_plan (only : s.Only p d) {lookup : Lookup} {span : Span} {strategy : Rename.Strategy}
    {change : String → String} {plan : Plan}
    (made : ((Service.plain lookup).plan s d span strategy change).run = .ok (some plan)) :
    ∃ options t result, s.options? p.id = some options ∧
      ((Service.plain lookup).apply { plan with strategy := .batched } s false).run = .ok t ∧
      t.documents.map (·.text) = [result] ∧
      Rename.Replaced plan.new (((Environment.ofOptions options).standing (p.analysis d) plan.symbol.name
        plan.symbol.id).map (·.span)) d.text result := by
  obtain ⟨options, planned⟩ := Service.plan_eq_ok made
  have checked := planned.present
  rw [only.valid.owned p only.project d only.document] at checked
  have uses : plan.fileUses = (Environment.ofOptions options).uses (p.analysis d) := by
    rw [planned.uses, (options_of_mem only.valid only.project checked).1]
    rfl
  obtain ⟨t, result, applied, texts, replaced⟩ :=
    only.exists_apply checked lookup planned.origin (fun _ => uses) (only.symbol_of_plan made).2
  exact ⟨options, t, result, checked, applied, texts, replaced⟩

end Solution.Only

end CrossRef
