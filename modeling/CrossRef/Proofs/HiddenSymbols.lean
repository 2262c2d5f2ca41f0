import CrossRef.Proofs.LocatedUses

/-! Where the uses of a symbol are found that is not public. What only its file can see is looked for in the check
of one document, and what only its project can see in the projects that list the declaring file. The first is
enough for every project that reads the file in the same tokens, the second for every project that lists the file. -/

namespace CrossRef
open Check Syntax

namespace Solution

variable {s : Solution} {p : Project} {document : Document} {lookup : Lookup} {offset : Nat} {resolved : ResolvedUse}

theorem resolution_of_resolveAt (valid : WellFormed s) (member : p ∈ s.projects) (listed : document ∈ p.documents)
    (found : ((Service.plain lookup).resolveAt s document offset).run = .ok (some resolved)) :
    ∃ options m b, s.options? p.id = some options ∧
      resolved.fileUses = (Environment.ofOptions options).uses (p.analysis document) ∧
      (m, some b) ∈ (Environment.ofOptions options).resolutions (p.analysis document) ∧
      resolved.use.symbol = b.symbol := by
  obtain ⟨checked, reported⟩ := Service.resolveAt_plain found
  obtain ⟨options, present, -, uses⟩ := Service.checkDocument_plain checked
  rw [valid.owned p member document listed] at present
  rw [(options_of_mem valid member present).1] at uses
  obtain ⟨m, b, stands, symbol, -⟩ := Environment.mem_uses (uses ▸ reported)
  exact ⟨options, m, b, present, uses, stands, symbol⟩

theorem visibility?_of_private {b : Binding} (bound : b ∈ (p.analysis document).bindings)
    (hidden : b.symbol.isPrivateToFile = true) : b.symbol.visibility? document s = some .currentDocument := by
  have place := (symbol_of_binding bound).2.1
  rw [Symbol.visibility?, place]
  exact if_pos ⟨hidden, .refl _⟩

theorem visibility?_of_shown (valid : WellFormed s) (member : p ∈ s.projects) {e : Document}
    (listed : e ∈ p.documents) {b : Binding} (bound : b ∈ (p.analysis e).bindings)
    (shown : b.symbol.isPrivateToFile = false) :
    b.symbol.visibility? document s =
      some (.projects (s.projectsContaining e.path) (b.symbol.access == .ownProject)) := by
  have place := (symbol_of_binding bound).2.1
  have owner : p.id ∈ s.projectsContaining e.path :=
    valid.mem_projectsContaining.mpr ⟨p, member, rfl, e, listed, .refl _⟩
  rw [Symbol.visibility?, place]
  simp only [Option.bind_eq_bind, Option.bind_some, shown]
  generalize s.projectsContaining e.path = ids at owner
  cases ids with
  | nil => cases owner
  | cons first rest => rfl

private theorem visibility?_of_internal (valid : WellFormed s) (member : p ∈ s.projects) {e : Document}
    (listed : e ∈ p.documents) {b : Binding} (bound : b ∈ (p.analysis e).bindings)
    (shown : b.symbol.isPrivateToFile = false) (access : b.symbol.access = .ownProject) :
    b.symbol.visibility? document s = some (.projects (s.projectsContaining e.path) true) := by
  rw [visibility?_of_shown valid member listed bound shown, access]
  rfl

/-- In documents of one path that are read in the same tokens, a name that only the file can see stands for the same,
whatever else their projects see. -/
theorem resolution_alike {q : Project} {e : Document} {other : Options} (options : Options) (path : e.path = document.path)
    (tokens : (lex e.text q.configuration.defines).tokens = (lex document.text p.configuration.defines).tokens)
    {m : Mark} {b : Binding} (hidden : b.symbol.isPrivateToFile = true)
    (stands : (m, some b) ∈ (Environment.ofOptions other).resolutions (q.analysis e)) :
    (m, some b) ∈ (Environment.ofOptions options).resolutions (p.analysis document) := by
  have marks : (q.analysis e).marks = (p.analysis document).marks := by
    simp only [Project.analysis, Analysis.ofText, tokens, path]
  have files : (q.analysis e).path = (p.analysis document).path := path
  rw [Environment.resolutions, ← files, ← marks]
  exact Environment.resolutions_of_private hidden stands

/-- The check of a document reports what another project reports of a symbol that only the file can see. -/
theorem reported_in_document (valid : WellFormed s) (plain : ∀ d ∈ s.documents, ':' ∉ d.path.text.toList)
    (member : p ∈ s.projects) (listed : document ∈ p.documents) (options : Options) {b : Binding}
    (bound : b ∈ (p.analysis document).bindings) {q : Project} (project : q ∈ s.projects) {u : Use}
    (reported : u ∈ s.reported b.symbol q.id) (hidden : u.symbol.isPrivateToFile = true)
    (alike : ∀ e ∈ q.documents, e.path.Same document.path →
      (lex e.text q.configuration.defines).tokens = (lex document.text p.configuration.defines).tokens) :
    ∃ v ∈ usesOf b.symbol ((Environment.ofOptions options).uses (p.analysis document)), v.place = u.place := by
  obtain ⟨same, r, e, equal, known, inside, settings, -, m, c, stands, symbol, place⟩ := mem_reported reported
  obtain rfl := valid.eq_of_id known project equal
  rw [symbol] at same hidden
  obtain ⟨-, -, home, ordinal, made, -⟩ := symbol_of_binding bound
  obtain ⟨-, -, keeper, number, makes, -⟩ := symbol_of_binding (Environment.own_of_private hidden stands)
  have path : e.path = document.path :=
    path_of_identity (plain e (List.mem_flatMap.mpr ⟨r, known, inside⟩))
      (plain document (List.mem_flatMap.mpr ⟨p, member, listed⟩)) (makes.symm.trans (same.trans made))
  have here := resolution_alike options path (alike e inside (path ▸ .refl _)) hidden stands
  obtain ⟨v, use, standing, where_⟩ := Environment.exists_use here
  refine ⟨v, List.mem_filter.mpr ⟨use, by simp [standing, same]⟩, ?_⟩
  rw [where_, place, path]
  rfl

private theorem declared_in_project (valid : WellFormed s) (member : p ∈ s.projects) (listed : document ∈ p.documents)
    {options : Options} (checked : s.options? p.id = some options) {m : Mark} {b : Binding}
    (stands : (m, some b) ∈ (Environment.ofOptions options).resolutions (p.analysis document))
    (hidden : b.symbol.access ≠ .everywhere) : ∃ e ∈ p.documents, b ∈ (p.analysis e).bindings := by
  rcases origin_of_resolution valid member checked stands with own | ⟨e, inside, bound, -⟩ | ⟨_, _, _, _, _, _, wide⟩
  · exact ⟨document, listed, own⟩
  · exact ⟨e, inside, bound⟩
  · exact absurd wide hidden

private theorem lists_of_reported (valid : WellFormed s) (plain : ∀ d ∈ s.documents, ':' ∉ d.path.text.toList)
    (member : p ∈ s.projects) {e : Document} (listed : e ∈ p.documents) {b : Binding}
    (bound : b ∈ (p.analysis e).bindings) {project : ProjectId} {u : Use} (reported : u ∈ s.reported b.symbol project)
    (hidden : u.symbol.isLocal = true ∨ u.symbol.access ≠ .everywhere) : project ∈ s.projectsContaining e.path := by
  obtain ⟨same, q, d, rfl, known, inside, options, checked, m, c, stands, symbol, -⟩ := mem_reported reported
  obtain ⟨-, -, home, ordinal, made, -⟩ := symbol_of_binding bound
  rw [symbol] at same hidden
  rcases declares_or_refers valid plain known checked inside stands
    (plain e (List.mem_flatMap.mpr ⟨p, member, listed⟩)) (same.trans made) with mine | ⟨_, _, _, wide, shown⟩
  · exact mine
  · rw [wide, shown] at hidden
    simp at hidden

end Solution

theorem exists_group_at {s : Solution} (valid : WellFormed s) {uses : List Use} {v : Use} (listed : v ∈ uses)
    {d : Document} (member : d ∈ s.documents) (same : d.path.Same v.place.file) :
    ∃ group ∈ groupByDocument (distinctPlaces uses) s, group.document.Same d.id ∧
      ∃ w ∈ group.uses, w ∈ uses ∧ w.place.key = v.place.key := by
  obtain ⟨w, kept, key⟩ := List.mem_map.mp
    ((mem_map_distinctBy (fun u : Use => u.place.key) uses v.place.key).mpr (List.mem_map_of_mem listed))
  have file : v.place.file.Same w.place.file := (congrArg Prod.fst key).symm
  obtain ⟨group, grouped, heads, inside⟩ := exists_group valid member kept (same.trans file)
  exact ⟨group, grouped, heads, w, inside, (distinctBy_sublist _ _).subset kept, key⟩

/-- The uses of a symbol that is not public are all found, in each project that reads the symbol as the document of
the cursor does. -/
theorem hidden_uses_found {s : Solution} (run : Reachable s) (plain : ∀ d ∈ s.documents, ':' ∉ d.path.text.toList)
    {p : Project} (member : p ∈ s.projects) {document : Document} (listed : document ∈ p.documents) {lookup : Lookup}
    {offset : Nat} {resolved : ResolvedUse}
    (found : ((Service.plain lookup).resolveAt s document offset).run = .ok (some resolved))
    (hidden : resolved.use.symbol.isLocal = true ∨ resolved.use.symbol.access ≠ .everywhere) :
    ∃ declared visibility groups, resolved.use.symbol.declaration = some declared ∧
      resolved.use.symbol.visibility? document s = some visibility ∧
      ((Service.plain lookup).usesAcross resolved.use.symbol visibility (usesOf · resolved.fileUses) s false).run =
        .ok groups ∧
      ∀ q ∈ s.projects, ∀ u ∈ s.reported resolved.use.symbol q.id,
        (resolved.use.symbol.isPrivateToFile = true → u.symbol.isPrivateToFile = true ∧
          ∀ e ∈ q.documents, e.path.Same document.path →
            (lex e.text q.configuration.defines).tokens = (lex document.text p.configuration.defines).tokens) →
        (resolved.use.symbol.isPrivateToFile = false →
          u.symbol.isLocal = true ∨ u.symbol.access ≠ .everywhere ∨ q.id ∈ s.projectsContaining declared.file) →
        ∀ d ∈ s.documents, d.path.Same u.place.file →
          ∃ group ∈ groups, group.document.Same d.id ∧
            ∃ v ∈ group.uses, v.symbol.id = resolved.use.symbol.id ∧ v.place.key = u.place.key := by
  have valid := run.wellFormed
  obtain ⟨options, m, b, checked, uses, stands, symbol⟩ := Solution.resolution_of_resolveAt valid member listed found
  rw [symbol] at hidden ⊢
  rw [uses]
  cases closed : b.symbol.isPrivateToFile with
  | true =>
    have bound := Environment.own_of_private closed stands
    refine ⟨_, .currentDocument, _, (symbol_of_binding bound).2.1, Solution.visibility?_of_private bound closed, rfl, ?_⟩
    intro q project u reported alike _ d document same
    obtain ⟨private_, tokens⟩ := alike rfl
    obtain ⟨v, use, place⟩ :=
      Solution.reported_in_document valid plain member listed options bound project reported private_ tokens
    obtain ⟨group, grouped, heads, w, inside, known, key⟩ := exists_group_at valid use document (place ▸ same)
    exact ⟨group, grouped, heads, w, inside, by simpa using (List.mem_filter.mp known).2, place ▸ key⟩
  | false =>
    have access : b.symbol.access = .ownProject := by
      cases level : b.symbol.access <;> simp_all [Symbol.isPrivateToFile]
    obtain ⟨e, inside, bound⟩ :=
      Solution.declared_in_project valid member listed checked stands (by rw [access]; simp)
    refine ⟨_, _, _, (symbol_of_binding bound).2.1,
      Solution.visibility?_of_internal valid member inside bound closed access, Service.usesAcross_projects .., ?_⟩
    intro q project u reported _ alike d document same
    have lists : q.id ∈ s.projectsContaining e.path := by
      rcases alike rfl with local_ | wide | lists
      · exact Solution.lists_of_reported valid plain member inside bound reported (.inl local_)
      · exact Solution.lists_of_reported valid plain member inside bound reported (.inr wide)
      · exact lists
    have searched : q.id ∈ (Visibility.projects (s.projectsContaining e.path) true).searchedProjects s :=
      Visibility.mem_searchedProjects.mpr ⟨q.id, lists, .inl rfl⟩
    obtain ⟨group, grouped, heads, w, member, known, key⟩ :=
      exists_group_at valid (List.mem_flatMap.mpr ⟨q.id, searched, reported⟩) document same
    obtain ⟨_, -, listed⟩ := List.mem_flatMap.mp known
    exact ⟨group, grouped, heads, w, member, (mem_reported listed).1, key⟩

/-- The search for a symbol that is not public misses a use that the check of a project reports. -/
def Solution.Misses (s : Solution) (document : Document) (offset : Nat) (project : ProjectId) : Prop :=
  ∃ resolved visibility groups u, ((Service.plain .precise).resolveAt s document offset).run = .ok (some resolved) ∧
    (resolved.use.symbol.isLocal = true ∨ resolved.use.symbol.access ≠ .everywhere) ∧
    resolved.use.symbol.visibility? document s = some visibility ∧
    ((Service.plain .precise).usesAcross resolved.use.symbol visibility (usesOf · resolved.fileUses) s false).run =
      .ok groups ∧
    u ∈ s.reported resolved.use.symbol project ∧ ∀ group ∈ groups, ∀ v ∈ group.uses, v.place.key ≠ u.place.key

namespace Sample

/-! A file with a private name and one whose name is public under a definition, in a project with the definition and
in one without it; and a project that uses the public name. -/

def secret (project : ProjectId) : Document :=
  .ofText ⟨project, .ofText "secret.ml"⟩ "let private f = 1\n#if X\nf\n#endif"

def switch (project : ProjectId) : Document :=
  .ofText ⟨project, .ofText "switch.ml"⟩ "#if X\nlet g = 1\n#else\nlet internal g = 1\n#endif"

def outside : Document := .ofText ⟨"Tool", .ofText "tool.ml"⟩ "let h = g"

def bare : Project := .ofDocuments "Bare" ⟨[], []⟩ [secret "Bare", switch "Bare"]

def full : Project := .ofDocuments "Full" ⟨["X"], []⟩ [secret "Full", switch "Full"]

def tool : Project := .ofDocuments "Tool" ⟨[], ["Full"]⟩ [outside]

def branches : Solution := ⟨[bare, full, tool], .ofProjects [bare, full, tool], 0⟩

private theorem branches_reachable : Reachable branches := by
  have success : Solution.build [bare, full, tool] = .ok branches := by decide
  exact .built (by decide) success

private def privateToken : Token := ⟨.word, ⟨12, 1⟩, 0, 12, "f"⟩

private def privateBinding : Binding :=
  ⟨symbolOf (.ofText "secret.ml") "" (Tally.empty.count ("", "f")) privateToken .value .ownFile false, privateToken, none⟩

private def privateReference : Reference := ⟨⟨.word, ⟨24, 1⟩, 2, 0, "f"⟩, .use⟩

private theorem full_reports : ∃ u ∈ branches.reported privateBinding.symbol "Full",
    u.symbol = privateBinding.symbol ∧ u.place = ⟨.ofText "secret.ml", .onLine 2 0 1⟩ := by
  have marks : (full.analysis (secret "Full")).marks = [.binding privateBinding, .reference privateReference] := rfl
  have found := Environment.resolve?_eq_find? (full.options []) (secret "Full").path [privateBinding] privateReference
  have first : (Environment.candidates (full.options []) (secret "Full").path [privateBinding]
      privateReference.offset).find? (·.symbol.name = privateReference.name) = some privateBinding := rfl
  rw [first] at found
  have stands : (.reference privateReference, some privateBinding) ∈
      (Environment.ofOptions (full.options [])).resolutions (full.analysis (secret "Full")) := by
    rw [Environment.resolutions, marks, ← found]
    exact List.mem_cons_of_mem _ (List.mem_cons_self ..)
  exact Environment.exists_reported (List.mem_cons_self ..) stands

private def internalToken : Token := ⟨.word, ⟨35, 1⟩, 3, 13, "g"⟩

private def internalSymbol : Symbol :=
  symbolOf (.ofText "switch.ml") "" (Tally.empty.count ("", "g")) internalToken .value .ownProject false

private def publicToken : Token := ⟨.word, ⟨10, 1⟩, 1, 4, "g"⟩

private def publicBinding : Binding :=
  ⟨symbolOf (.ofText "switch.ml") "" (Tally.empty.count ("", "g")) publicToken .value .everywhere false, publicToken, none⟩

private def toolBinding : Binding :=
  let named : Token := ⟨.word, ⟨4, 1⟩, 0, 4, "h"⟩
  ⟨symbolOf outside.path "" (Tally.empty.count ("", "h")) named .value .everywhere false, named, none⟩

private def toolReference : Reference := ⟨⟨.word, ⟨8, 1⟩, 0, 8, "g"⟩, .use⟩

/-- The identity tells nothing of the access, so the public name counts as the internal one. -/
private theorem tool_reports :
    ∃ u ∈ branches.reported internalSymbol "Tool", u.place = ⟨outside.path, .onLine 0 8 9⟩ := by
  have marks : (tool.analysis outside).marks = [.binding toolBinding, .reference toolReference] := rfl
  have found := Environment.resolve?_eq_find? (tool.options [full.options []]) outside.path [toolBinding] toolReference
  have first : (Environment.candidates (tool.options [full.options []]) outside.path [toolBinding]
      toolReference.offset).find? (·.symbol.name = toolReference.name) = some publicBinding := rfl
  rw [first] at found
  have stands : (.reference toolReference, some publicBinding) ∈
      (Environment.ofOptions (tool.options [full.options []])).resolutions (tool.analysis outside) := by
    rw [Environment.resolutions, marks, ← found]
    exact List.mem_cons_of_mem _ (List.mem_cons_self ..)
  obtain ⟨u, use, -, place⟩ := Environment.exists_reported (List.mem_singleton.mpr rfl) stands
  exact ⟨u, use, place⟩

private theorem resolves_first {p : Project} {d : Document} (owner : d.id.project = p.id)
    (checked : branches.options? p.id = some (p.options [])) (listed : (p.options []).contains d.path = true)
    {offset : Nat} (boundary : Text.isBoundary d.text offset = true) {candidate : Candidate}
    (pointed : candidateAt d.text offset p.configuration.defines .precise = some candidate) {use : Use} {rest : List Use}
    (uses : (Environment.ofOptions (p.options [])).uses (p.analysis d) = use :: rest)
    (hit : useAt? (use :: rest) candidate.line candidate.endColumn candidate.lineText candidate.island = some use) :
    ∃ resolved, ((Service.plain .precise).resolveAt branches d offset).run = .ok (some resolved) ∧ resolved.use = use := by
  rw [← uses] at hit
  exact Service.resolveAt_of_use (owner ▸ checked) listed boundary pointed hit

private theorem resolves_private {p : Project} (checked : branches.options? p.id = some (p.options []))
    (listed : (p.options []).contains (secret p.id).path = true)
    (pointed : candidateAt (secret p.id).text 12 p.configuration.defines .precise =
      some ⟨⟨12, 1⟩, false, 0, 12, 13, "let private f = 1", ["f"]⟩) {rest : List Use}
    (uses : (Environment.ofOptions (p.options [])).uses (p.analysis (secret p.id)) =
      ⟨privateBinding.symbol, ⟨.ofText "secret.ml", privateToken.range⟩, .definition⟩ :: rest) :
    ∃ resolved, ((Service.plain .precise).resolveAt branches (secret p.id) 12).run = .ok (some resolved) ∧
      resolved.use.symbol = privateBinding.symbol := by
  have boundary : Text.isBoundary (secret p.id).text 12 = true :=
    (by decide : Text.isBoundary (secret "").text 12 = true)
  have hit : useAt? (⟨privateBinding.symbol, ⟨.ofText "secret.ml", privateToken.range⟩, .definition⟩ :: rest) 0 13
      "let private f = 1" ["f"] = some ⟨privateBinding.symbol, ⟨.ofText "secret.ml", privateToken.range⟩, .definition⟩ := by
    simp only [useAt?, List.getLast?_singleton, Option.bind_eq_bind, Option.bind_some]
    exact List.find?_cons_of_pos (by decide)
  obtain ⟨resolved, found, use⟩ := resolves_first rfl checked listed boundary pointed uses hit
  exact ⟨resolved, found, by rw [use]⟩

private theorem misses_private : branches.Misses (secret "Bare") 12 "Full" := by
  have checked : branches.options? bare.id = some (bare.options []) := rfl
  have uses : (Environment.ofOptions (bare.options [])).uses (bare.analysis (secret "Bare")) =
      [⟨privateBinding.symbol, ⟨.ofText "secret.ml", privateToken.range⟩, .definition⟩] := rfl
  obtain ⟨resolved, found, symbol⟩ := resolves_private checked (by decide) (by decide) uses
  obtain ⟨u, reported, -, place⟩ := full_reports
  obtain ⟨options, _, _, present, fileUses, -⟩ := Solution.resolution_of_resolveAt branches_reachable.wellFormed
    (List.mem_cons_self ..) (List.mem_cons_self ..) found
  obtain rfl := Option.some.inj (checked.symm.trans present)
  rw [uses] at fileUses
  refine ⟨resolved, .currentDocument, _, u, found, .inr (by rw [symbol]; decide), by rw [symbol]; rfl, rfl,
    symbol ▸ reported, ?_⟩
  intro group member v inside
  have listed := (distinctBy_sublist _ _).subset (mem_of_mem_group branches_reachable.wellFormed member inside)
  have only := (List.mem_filter.mp listed).1
  rw [fileUses, List.mem_singleton] at only
  rw [only, place]
  decide

private theorem misses_internal : branches.Misses (switch "Bare") 35 "Tool" := by
  have checked : branches.options? bare.id = some (bare.options []) := rfl
  have uses : (Environment.ofOptions (bare.options [])).uses (bare.analysis (switch "Bare")) =
      [⟨internalSymbol, ⟨.ofText "switch.ml", internalToken.range⟩, .definition⟩] := rfl
  have pointed : candidateAt (switch "Bare").text 35 [] .precise =
      some ⟨⟨35, 1⟩, false, 3, 13, 14, "let internal g = 1", ["g"]⟩ := by decide
  have hit : useAt? [⟨internalSymbol, ⟨.ofText "switch.ml", internalToken.range⟩, .definition⟩] 3 14
      "let internal g = 1" ["g"] = some ⟨internalSymbol, ⟨.ofText "switch.ml", internalToken.range⟩, .definition⟩ := by
    simp only [useAt?, List.getLast?_singleton, Option.bind_eq_bind, Option.bind_some]
    exact List.find?_cons_of_pos (by decide)
  obtain ⟨resolved, found, use⟩ := resolves_first rfl checked (by decide) (by decide) pointed uses hit
  have symbol : resolved.use.symbol = internalSymbol := by rw [use]
  obtain ⟨u, reported, place⟩ := tool_reports
  refine ⟨resolved, .projects ["Bare", "Full"] true, _, u, found, .inr (by rw [symbol]; decide), by rw [symbol]; rfl,
    Service.usesAcross_projects .., symbol ▸ reported, ?_⟩
  intro group member v inside
  have listed := (distinctBy_sublist _ _).subset (mem_of_mem_group branches_reachable.wellFormed member inside)
  obtain ⟨project, searched, known⟩ := List.mem_flatMap.mp listed
  obtain ⟨owner, among, same | ⟨impossible, -⟩⟩ := Visibility.mem_searchedProjects.mp searched
  · obtain ⟨-, p, d, rfl, project, document, -, -, _, _, -, -, file⟩ := mem_reported known
    rw [← same] at among
    have apart : ∀ p ∈ branches.projects, p.id ∈ ["Bare", "Full"] → ∀ d ∈ p.documents, ¬d.path.Same outside.path := by
      decide
    intro equal
    rw [file, place] at equal
    exact apart p project among d document (congrArg Prod.fst equal)
  · cases impossible

/-- What stands behind a condition is missed from a project without the definition, and a use of a name that is
public under a definition from a project where it is internal. -/
theorem hidden_uses_missed : branches.Misses (secret "Bare") 12 "Full" ∧ branches.Misses (switch "Bare") 35 "Tool" :=
  ⟨misses_private, misses_internal⟩

/-- From the project with the definition, the use behind the condition is found for both documents of the file. -/
theorem hidden_uses_found_under_definition :
    ∃ resolved groups, ((Service.plain .precise).resolveAt branches (secret "Full") 12).run = .ok (some resolved) ∧
      ((Service.plain .precise).usesAcross resolved.use.symbol .currentDocument (usesOf · resolved.fileUses) branches
        false).run = .ok groups ∧
      ∀ d ∈ [secret "Bare", secret "Full"], ∃ group ∈ groups, group.document.Same d.id ∧
        ∃ v ∈ group.uses, v.place.range = .onLine 2 0 1 := by
  have checked : branches.options? full.id = some (full.options []) := rfl
  obtain ⟨rest, uses⟩ : ∃ rest, (Environment.ofOptions (full.options [])).uses (full.analysis (secret "Full")) =
      ⟨privateBinding.symbol, ⟨.ofText "secret.ml", privateToken.range⟩, .definition⟩ :: rest := ⟨_, rfl⟩
  obtain ⟨resolved, found, symbol⟩ := resolves_private checked (by decide) (by decide) uses
  obtain ⟨u, reported, use, place⟩ := full_reports
  have member : full ∈ branches.projects := List.mem_cons_of_mem _ (List.mem_cons_self ..)
  obtain ⟨declared, visibility, groups, -, visible, across, complete⟩ := hidden_uses_found branches_reachable (by decide)
    member (List.mem_cons_self ..) found (.inr (by rw [symbol]; decide))
  have scope : resolved.use.symbol.visibility? (secret "Full") branches = some .currentDocument := by rw [symbol]; rfl
  obtain rfl := Option.some.inj (scope.symm.trans visible)
  refine ⟨resolved, groups, found, across, ?_⟩
  have both : ∀ d ∈ [secret "Bare", secret "Full"], d ∈ branches.documents ∧ d.path.Same (.ofText "secret.ml") := by decide
  have alike : ∀ e ∈ full.documents, e.path.Same (secret "Full").path →
      (lex e.text full.configuration.defines).tokens = (lex (secret "Full").text full.configuration.defines).tokens := by
    decide
  intro d listed
  obtain ⟨document, file⟩ := both d listed
  obtain ⟨group, grouped, heads, v, inside, -, key⟩ := complete full member u (symbol ▸ reported)
    (fun _ => ⟨by rw [use]; rfl, alike⟩) (fun open_ => by rw [symbol] at open_; cases open_) d document
    (by rw [place]; exact file)
  rw [place] at key
  exact ⟨group, grouped, heads, v, inside, congrArg Prod.snd key⟩

end Sample

end CrossRef
