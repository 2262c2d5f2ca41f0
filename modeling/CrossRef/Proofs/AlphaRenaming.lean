import CrossRef.Proofs.PlannedTokens
import CrossRef.Proofs.RenamedResolution

/-! Renaming a symbol changes names and nothing else. After a plan has been carried out, each file has the marks that
it had, at the same tokens, and each of them stands for the counterpart of what it stood for. The marks that
stand for the symbol have the new name, the others the name that they had. -/

namespace CrossRef
open Check Syntax

/-- What a new name has to be in a solution so that a rename can give it to the symbols of an old name: an identifier
without fences that does not look like the end of a region, and that no token has. -/
structure Solution.Renamable (s : Solution) (name new : String) : Prop where
  identifier : isIdentifier new = true
  bare : fenced? new.toList = none
  other : new ≠ "endif"
  fresh : ∀ p ∈ s.projects, ∀ d ∈ p.documents, ∀ t ∈ (lex d.text p.configuration.defines).tokens, t.name ≠ new
  words : ∀ p ∈ s.projects, ∀ d ∈ p.documents, ∀ t ∈ (lex d.text p.configuration.defines).tokens,
    t.isIdentifier = true → t.name = name → t.kind = .word

private theorem Solution.Renamable.plainName {s : Solution} {name new : String} (fits : s.Renamable name new) :
    PlainName new := by
  have identifier := fits.identifier
  rw [isIdentifier, fits.bare] at identifier
  cases spelled : new.toList with
  | nil =>
    rw [spelled] at identifier
    cases identifier
  | cons c more =>
    rw [spelled] at identifier
    simp only [Bool.and_eq_true, List.all_eq_true, Bool.not_eq_true'] at identifier
    exact ⟨spelled ▸ ⟨identifier.1.1, identifier.1.2⟩, identifier.2⟩

def Project.tokenPairs (p : Project) (edit : Document → Document) (d : Document) : List (Token × Token) :=
  (lex d.text p.configuration.defines).tokens.zip (lex (edit d).text p.configuration.defines).tokens

/-- A binding of a document and the one at the same place among the marks of the edited document. -/
def Solution.Counterpart (s : Solution) (edit : Document → Document) (b c : Binding) : Prop :=
  ∃ p ∈ s.projects, ∃ d ∈ p.documents,
    (.binding b, .binding c) ∈ (p.analysis d).marks.zip (p.analysis (edit d)).marks

structure Solution.Respells (s : Solution) (symbol : Symbol) (new : String) (edit : Document → Document) : Prop where
  bare : fenced? new.toList = none
  fresh : ∀ p ∈ s.projects, ∀ d ∈ p.documents, ∀ t ∈ (lex d.text p.configuration.defines).tokens, t.name ≠ new
  id : ∀ d, (edit d).id = d.id
  paired : ∀ p ∈ s.projects, ∀ d ∈ p.documents, Paired (s.standing symbol p d).contains new
    (lex d.text p.configuration.defines).tokens (lex (edit d).text p.configuration.defines).tokens (p.tokenPairs edit d)

namespace Solution.Respells

variable {s : Solution} {symbol : Symbol} {new : String} {edit : Document → Document} {p : Project} {d : Document}

theorem path (respells : s.Respells symbol new edit) (d : Document) : (edit d).path = d.path :=
  congrArg DocumentId.path (respells.id d)

theorem marks (respells : s.Respells symbol new edit) (listed : p ∈ s.projects) (inside : d ∈ p.documents) :
    List.Forall₂ (Mark.Beside (p.tokenPairs edit d)) (p.analysis d).marks (p.analysis (edit d)).marks := by
  have same := marks_of_paired (respells.paired p listed d inside) d.path
  rw [Project.analysis, Project.analysis, respells.path]
  exact same

theorem beside (respells : s.Respells symbol new edit) (listed : p ∈ s.projects) (inside : d ∈ p.documents) {m n : Mark}
    (both : (m, n) ∈ (p.analysis d).marks.zip (p.analysis (edit d)).marks) : m.Beside (p.tokenPairs edit d) n :=
  (List.forall₂_iff_zip.mp (respells.marks listed inside)).2 both

theorem name (respells : s.Respells symbol new edit) (listed : p ∈ s.projects) (inside : d ∈ p.documents)
    {options : Options} (checked : s.options? p.id = some options) {x : Mark × Option Binding}
    (member : x ∈ (Environment.ofOptions options).resolutions (p.analysis d)) {u : Token}
    (tokens : (x.1.token, u) ∈ p.tokenPairs edit d) :
    u.name = if x.2.any (·.symbol = symbol) then new else x.1.token.name := by
  have named := ((respells.paired p listed d inside).respelled _ tokens).name respells.bare
  have chosen : (s.standing symbol p d).contains x.1.token = x.2.any (·.symbol = symbol) := by
    rw [Bool.eq_iff_iff, List.contains_iff_mem]
    exact token_mem_standing checked member
  rw [chosen] at named
  exact named

theorem rules (respells : s.Respells symbol new edit) (valid : WellFormed s) :
    Renaming symbol new (s.Counterpart edit) := by
  have each : ∀ {b c}, s.Counterpart edit b c → c.symbol.name = (if b.symbol = symbol then new else b.symbol.name) ∧
      b.symbol.name ≠ new ∧ c.symbol.access = b.symbol.access ∧ c.symbol.isLocal = b.symbol.isLocal := by
    rintro b c ⟨p, listed, d, inside, both⟩
    obtain ⟨options, checked⟩ := exists_options (valid.project?_of_mem listed)
    obtain ⟨marked, -⟩ := List.of_mem_zip both
    have known := (identifier_of_mark marked).1
    cases respells.beside listed inside both with
    | binding same =>
      have stands := (Environment.ofOptions options).resolution_of_binding marked
      have name := respells.name listed inside checked stands same.tokens
      refine ⟨?_, same.named ▸ respells.fresh p listed d inside b.token known, same.access, same.isLocal⟩
      rw [same.renamed, same.named, name]
      simp [Mark.token]
  exact ⟨fun both => (each both).1, fun both => (each both).2.1, fun both => (each both).2.2.1,
    fun both => (each both).2.2.2⟩

private theorem counterparts (respells : s.Respells symbol new edit) (listed : p ∈ s.projects)
    (inside : d ∈ p.documents) :
    List.Forall₂
      (fun m n => m.Beside (p.tokenPairs edit d) n ∧ ∀ b c, m = .binding b → n = .binding c → s.Counterpart edit b c)
      (p.analysis d).marks (p.analysis (edit d)).marks := by
  have lengths := (respells.marks listed inside).length_eq
  refine List.forall₂_iff_zip.mpr ⟨lengths, fun {m n} both => ⟨respells.beside listed inside both, ?_⟩⟩
  rintro b c rfl rfl
  exact ⟨p, listed, d, inside, both⟩

theorem analysis (respells : s.Respells symbol new edit) (listed : p ∈ s.projects) (inside : d ∈ p.documents) :
    (p.analysis d).Renamed (s.Counterpart edit) (p.analysis (edit d)) := by
  refine ⟨respells.path d, List.rel_filterMap ?_ (respells.counterparts listed inside)⟩
  rintro m n ⟨same, related⟩
  cases same with
  | binding => exact .some (related _ _ rfl rfl)
  | reference => exact .none

theorem analyses (respells : s.Respells symbol new edit) (listed : p ∈ s.projects) :
    List.Forall₂ (Analysis.Renamed (s.Counterpart edit)) p.analyses (p.mapDocuments edit).analyses := by
  have edited : (p.mapDocuments edit).analyses = p.documents.map fun d => p.analysis (edit d) := by
    rw [Project.analyses, Project.mapDocuments]
    exact List.map_map
  rw [edited, Project.analyses, List.forall₂_map_left_iff, List.forall₂_map_right_iff]
  exact List.forall₂_same.mpr fun d inside => respells.analysis listed inside

end Solution.Respells

private theorem Solution.referenced_mapDocuments {s t : Solution} {edit : Document → Document}
    (projects : t.projects = s.projects.map (·.mapDocuments edit)) (p : Project) :
    t.referenced (p.mapDocuments edit) = (s.referenced p).map (·.mapDocuments edit) := by
  have found : ∀ id, t.project? id = (s.project? id).map (·.mapDocuments edit) := by
    intro id
    rw [project?, project?, projects, List.find?_map]
    rfl
  rw [referenced, referenced, List.map_filterMap]
  refine List.filterMap_congr fun id _ => ?_
  have same : (p.mapDocuments edit).id = p.id := rfl
  rw [same, found]
  split <;> rfl

/-- What the marks of a file stand for, before and after an edit that respells what stands for a symbol. -/
theorem Solution.Respells.resolutions {s t : Solution} {symbol : Symbol} {new : String} {edit : Document → Document}
    (respells : s.Respells symbol new edit) (valid : WellFormed s) (after : WellFormed t)
    (projects : t.projects = s.projects.map (·.mapDocuments edit)) {p : Project} (listed : p ∈ s.projects)
    {options changed : Options} (checked : s.options? p.id = some options) (rechecked : t.options? p.id = some changed)
    {d : Document} (inside : d ∈ p.documents) :
    List.Forall₂ (Mark.Renamed symbol new (s.Counterpart edit) (p.tokenPairs edit d))
      ((Environment.ofOptions options).resolutions (p.analysis d))
      ((Environment.ofOptions changed).resolutions (p.analysis (edit d))) := by
  have moved : p.mapDocuments edit ∈ t.projects := projects ▸ List.mem_map_of_mem listed
  obtain ⟨-, own, references⟩ := options_of_mem valid listed checked
  obtain ⟨-, ownChanged, referencesChanged⟩ := options_of_mem after moved rechecked
  have rules := respells.rules valid
  have paired := respells.paired p listed d inside
  have others : List.Forall₂ (s.Counterpart edit) (Environment.foreign options d.path)
      (Environment.foreign changed d.path) := by
    refine rules.foreign ?_ ?_ d.path
    · rw [own, ownChanged]
      exact respells.analyses listed
    · rw [references, referencesChanged, referenced_mapDocuments projects, List.flatMap_map]
      have same : List.Forall₂ (fun r q => r = q ∧ r ∈ s.referenced p) (s.referenced p) (s.referenced p) :=
        List.forall₂_same.mpr fun r referred => ⟨rfl, referred⟩
      refine List.rel_flatMap same ?_
      rintro r _ ⟨rfl, referred⟩
      exact respells.analyses (mem_referenced referred).1
  have unused : ∀ m ∈ (p.analysis d).marks, m.token.name ≠ new := fun m marked =>
    respells.fresh p listed d inside m.token (identifier_of_mark marked).1
  have empty : OwnBindings.ofList [] = .empty := rfl
  have path : (p.analysis (edit d)).path = d.path := respells.path d
  rw [Environment.resolutions, Environment.resolutions, path, ← empty]
  exact rules.resolutionsFrom ⟨paired.respelled, paired.inStep⟩ others (respells.counterparts listed inside) .nil unused
    fun x member u tokens => respells.name listed inside checked member tokens

private theorem Service.respells_of_plan {lookup : Lookup} {s : Solution} (valid : WellFormed s) (plain : s.Plain)
    {document : Document} (member : document ∈ s.documents) {span : Span} {strategy : Rename.Strategy}
    {change : String → String} {plan : Plan}
    (made : ((Service.plain lookup).plan s document span strategy change).run = .ok (some plan))
    (fits : s.Renamable plan.symbol.name plan.new) :
    s.Respells plan.symbol plan.new (plan.edit s) := by
  refine ⟨fits.bare, fits.fresh, fun d => Plan.changed_id .., ?_⟩
  intro p listed d inside
  obtain ⟨options, checked⟩ := Solution.exists_options (valid.project?_of_mem listed)
  have replaced := plan.replaced_changed valid plain.distinct (plan.located s) (List.mem_flatMap.mpr ⟨p, listed, inside⟩)
  rw [accepted_of_plan valid plain member made listed inside checked] at replaced
  have words : ∀ t ∈ (lex d.text p.configuration.defines).tokens,
      (s.standing plan.symbol p d).contains t = true → t.kind = .word := by
    intro t known chosen
    obtain ⟨m, b, resolved, same, rfl⟩ := (Solution.mem_standing checked).mp (List.contains_iff_mem.mp chosen)
    obtain ⟨marked, named⟩ := Environment.name_of_resolution resolved
    exact fits.words p listed d inside m.token known (identifier_of_mark marked).2 (by rw [← named, same])
  obtain ⟨pairs, paired⟩ := exists_paired fits.plainName fits.other d.text p.configuration.defines words replaced
  rw [paired.eq_zip] at paired
  exact paired

/-- Renaming a symbol to a fresh name. Each file keeps its marks at the same tokens, with the same kinds and
accesses. Those that stood for the symbol have the new name, the others the name they had, and each stands for the
counterpart of the binding that it stood for, or for nothing as before. -/
theorem rename_preserves_meaning {lookup : Lookup} {s : Solution} (run : Reachable s) (plain : s.Plain)
    {document : Document} (member : document ∈ s.documents) {span : Span} {strategy : Rename.Strategy}
    {change : String → String} {plan : Plan}
    (made : ((Service.plain lookup).plan s document span strategy change).run = .ok (some plan))
    (fits : s.Renamable plan.symbol.name plan.new) :
    ∃ t edit, ((Service.plain lookup).apply { plan with strategy := .batched } s false).run = .ok t ∧
      t.projects = s.projects.map (·.mapDocuments edit) ∧ (∀ d, (edit d).id = d.id) ∧
      ∀ p ∈ s.projects, ∃ options changed, s.options? p.id = some options ∧ t.options? p.id = some changed ∧
        checkProject options = (p.documents.flatMap fun d =>
          ((Environment.ofOptions options).resolutions (p.analysis d)).flatMap (Environment.usesOfMark d.path)) ∧
        checkProject changed = (p.documents.flatMap fun d =>
          ((Environment.ofOptions changed).resolutions (p.analysis (edit d))).flatMap (Environment.usesOfMark d.path)) ∧
        ∀ d ∈ p.documents,
          (lex (edit d).text p.configuration.defines).tokens.length =
            (lex d.text p.configuration.defines).tokens.length ∧
          List.Forall₂ (Mark.Renamed plan.symbol plan.new (s.Counterpart edit) (p.tokenPairs edit d))
            ((Environment.ofOptions options).resolutions (p.analysis d))
            ((Environment.ofOptions changed).resolutions (p.analysis (edit d))) := by
  have valid := run.wellFormed
  have respells := Service.respells_of_plan valid plain member made fits
  obtain ⟨t, success, after, outline, documents⟩ := Service.exists_apply valid plain.distinct member made
  have projects := Solution.projects_eq_map outline documents
  refine ⟨t, plan.edit s, success, projects, respells.id, ?_⟩
  intro p listed
  have moved : p.mapDocuments (plan.edit s) ∈ t.projects := projects ▸ List.mem_map_of_mem listed
  obtain ⟨options, checked⟩ := Solution.exists_options (valid.project?_of_mem listed)
  obtain ⟨changed, rechecked⟩ := Solution.exists_options (after.project?_of_mem moved)
  refine ⟨options, changed, checked, rechecked, ?_, ?_, ?_⟩
  · exact Solution.checkProject_eq (Solution.options_of_mem valid listed checked).2.1
  · have reported := Solution.checkProject_eq (Solution.options_of_mem after moved rechecked).2.1
    have edited : (p.mapDocuments (plan.edit s)).documents = p.documents.map (plan.edit s) := rfl
    rw [edited, List.flatMap_map] at reported
    simp only [respells.path] at reported
    exact reported
  · intro d inside
    have paired := respells.paired p listed d inside
    refine ⟨?_, respells.resolutions valid after projects listed checked rechecked inside⟩
    rw [← paired.before, ← paired.after, List.length_map, List.length_map]

theorem Sample.rename_library : ∃ plan t edit, plan.new = "c" ∧
    ((Service.plain .precise).plan solution library ⟨4, 1⟩ .batched fun _ => "c").run = .ok (some plan) ∧
    ((Service.plain .precise).apply { plan with strategy := .batched } solution false).run = .ok t ∧
    t.projects = [app.mapDocuments edit, lib.mapDocuments edit] := by
  obtain ⟨plan, made, new, named⟩ := exists_plan
  have fits : solution.Renamable plan.symbol.name plan.new := by
    rw [new, named]
    exact ⟨by decide, by decide, by decide, by decide, by decide⟩
  obtain ⟨t, edit, applied, projects, -⟩ :=
    rename_preserves_meaning reachable ⟨by decide, by decide⟩ (by decide) made fits
  exact ⟨plan, t, edit, new, made, applied, projects⟩

end CrossRef
