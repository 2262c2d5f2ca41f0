import CrossRef.Proofs.LocatedUses
import CrossRef.Proofs.NamedPlaces

/-! Which identifiers a plan replaces, where each path belongs to one document. Identities may clash there between
symbols of different names, so that more is located than the uses of the symbol. But what is replaced has its
name, and in the end those identifiers are replaced that stand for the symbol: no other one, and each of them. -/

namespace CrossRef
open Check Syntax

/-- Each path belongs to one document and has no colon. -/
structure Solution.Plain (s : Solution) : Prop where
  alone : s.documents.Pairwise fun d e => ¬d.path.Same e.path
  free : ∀ d ∈ s.documents, ':' ∉ d.path.text.toList

/-- The identifiers of a document that stand for a symbol, as a check of the project sees it. -/
def Solution.standing (s : Solution) (symbol : Symbol) (p : Project) (d : Document) : List Token :=
  (s.options? p.id).elim [] fun options =>
    (((Environment.ofOptions options).resolutions (p.analysis d)).filter (·.2.any (·.symbol = symbol))).map (·.1.token)

theorem WellFormed.project_unique {s : Solution} (valid : WellFormed s) {p q : Project} (first : p ∈ s.projects)
    (second : q ∈ s.projects) {d : Document} (inside : d ∈ p.documents) (among : d ∈ q.documents) : p = q := by
  have owner : p.id = q.id := (valid.owned p first d inside).symm.trans (valid.owned q second d among)
  exact valid.eq_of_id first second owner

namespace Solution.Plain

variable {s : Solution} {p q : Project} {d e : Document}

theorem distinct (plain : s.Plain) : s.Distinct := by
  refine List.pairwise_map.mpr (plain.alone.imp ?_)
  intro d e different same
  exact different (congrArg Prod.snd same)

theorem eq_of_same (plain : s.Plain) (first : d ∈ s.documents) (second : e ∈ s.documents)
    (same : d.path.Same e.path) : d = e := by
  have : Std.Symm fun d e : Document => ¬d.path.Same e.path := ⟨fun _ _ different equal => different equal.symm⟩
  by_contra other
  exact plain.alone.forall first second other same

theorem binding_unique (plain : s.Plain) (valid : WellFormed s) (first : p ∈ s.projects) (second : q ∈ s.projects)
    (inside : d ∈ p.documents) (among : e ∈ q.documents) {b c : Binding} (bound : b ∈ (p.analysis d).bindings)
    (other : c ∈ (q.analysis e).bindings) (named : b.symbol.name = c.symbol.name)
    (same : b.symbol.id = c.symbol.id) : b = c := by
  have here := List.mem_flatMap.mpr ⟨p, first, inside⟩
  have there := List.mem_flatMap.mpr ⟨q, second, among⟩
  obtain ⟨-, -, home, ordinal, made, -⟩ := symbol_of_binding bound
  obtain ⟨-, -, keeper, number, makes, -⟩ := symbol_of_binding other
  have path := path_of_identity (plain.free d here) (plain.free e there) (made.symm.trans (same.trans makes))
  obtain rfl : d = e := plain.eq_of_same here there (path ▸ .refl _)
  obtain rfl := valid.project_unique first second inside among
  exact Check.binding_unique bound other named same

end Solution.Plain

namespace Solution

variable {s : Solution} {symbol : Symbol} {p : Project} {d : Document} {options : Options}

theorem mem_standing (checked : s.options? p.id = some options) {t : Token} :
    t ∈ s.standing symbol p d ↔
      ∃ m b, (m, some b) ∈ (Environment.ofOptions options).resolutions (p.analysis d) ∧ b.symbol = symbol ∧
        m.token = t := by
  simp only [standing, checked, Option.elim, List.mem_map, List.mem_filter]
  constructor
  · rintro ⟨⟨m, found⟩, ⟨member, stands⟩, rfl⟩
    obtain ⟨b, rfl, same⟩ := (Option.any_eq_true ..).mp stands
    exact ⟨m, b, member, by simpa using same, rfl⟩
  · rintro ⟨m, b, member, same, rfl⟩
    exact ⟨(m, some b), ⟨member, by simpa using same⟩, rfl⟩

/-- A mark is listed if it stands for the symbol. No other mark shares its token. -/
theorem token_mem_standing (checked : s.options? p.id = some options) {x : Mark × Option Binding}
    (member : x ∈ (Environment.ofOptions options).resolutions (p.analysis d)) :
    x.1.token ∈ s.standing symbol p d ↔ x.2.any (·.symbol = symbol) = true := by
  constructor
  · intro listed
    obtain ⟨m, b, inside, same, token⟩ := (mem_standing checked).mp listed
    obtain rfl := List.inj_on_of_nodup_map (Environment.nodup_tokens ..) inside member token
    simpa using same
  · intro stands
    obtain ⟨b, found, same⟩ := (Option.any_eq_true ..).mp stands
    exact (mem_standing checked).mpr ⟨x.1, b, found ▸ member, by simpa using same, rfl⟩

end Solution

namespace Service

variable {lookup : Lookup} {s : Solution} {document : Document} {span : Span} {strategy : Rename.Strategy}
  {change : String → String} {plan : Plan} {p : Project} {d : Document} {options : Options}

private theorem searched_of_resolution (valid : WellFormed s) (plain : s.Plain) (listed : p ∈ s.projects)
    (inside : d ∈ p.documents) (checked : s.options? p.id = some options) {m : Mark} {b : Binding}
    (resolved : (m, some b) ∈ (Environment.ofOptions options).resolutions (p.analysis d)) {declared : Place}
    (declaration : b.symbol.declaration = some declared) :
    p.id ∈ (Visibility.projects (s.projectsContaining declared.file)
      (b.symbol.access == .ownProject)).searchedProjects s := by
  obtain ⟨q, project, e, among, bound⟩ := Solution.exists_binding valid listed inside checked resolved
  obtain ⟨-, place, home, ordinal, id, -⟩ := symbol_of_binding bound
  obtain rfl := Option.some.inj (declaration.symm.trans place)
  refine Visibility.mem_searchedProjects.mpr ?_
  rcases Solution.declares_or_refers valid plain.free listed checked inside resolved
    (plain.free e (List.mem_flatMap.mpr ⟨q, project, among⟩)) id with mine | ⟨r, referred, known, wide⟩
  · exact ⟨p.id, mine, .inl rfl⟩
  · obtain ⟨-, refers, different⟩ := Solution.mem_referenced referred
    exact ⟨r.id, known, .inr ⟨by simp [wide], Solution.mem_dependents listed refers different⟩⟩

variable (valid : WellFormed s) (plain : s.Plain) (member : document ∈ s.documents)
  (made : ((Service.plain lookup).plan s document span strategy change).run = .ok (some plan))

include valid plain member made

private theorem symbol_of_located {u : Use} (located : u ∈ plan.located s)
    (named : u.symbol.name = plan.symbol.name) : u.symbol = plan.symbol := by
  obtain ⟨same, p, d, reported⟩ := mem_located valid member made located
  obtain ⟨q, v, planned, symbol⟩ := symbol_of_plan valid member made
  obtain ⟨r, first, e, inside, b, bound, here⟩ := reported.binding valid
  obtain ⟨k, second, f, among, c, other, there⟩ := planned.binding valid
  rw [symbol] at there
  rw [here, there] at named same ⊢
  rw [plain.binding_unique valid first second inside among bound other named same]

variable (listed : p ∈ s.projects) (inside : d ∈ p.documents) (checked : s.options? p.id = some options)

include listed inside checked

private theorem located_in_document {m : Mark} {b : Binding}
    (resolved : (m, some b) ∈ (Environment.ofOptions options).resolutions (p.analysis d))
    (same : b.symbol = plan.symbol) (hidden : plan.symbol.isPrivateToFile = true) {declared : Place}
    (declaration : plan.symbol.declaration = some declared) (near : declared.file.Same document.path) {u : Use}
    (use : u ∈ (Environment.ofOptions options).uses (p.analysis d)) : u ∈ plan.fileUses := by
  have own := Environment.own_of_private (same ▸ hidden) resolved
  have place := (symbol_of_binding own).2.1
  rw [same, declaration] at place
  obtain rfl := Option.some.inj place
  obtain rfl := plain.eq_of_same (List.mem_flatMap.mpr ⟨p, listed, inside⟩) member near
  obtain ⟨found, planned⟩ := plan_eq_ok made
  have present := planned.present
  rw [valid.owned p listed d inside, checked] at present
  obtain rfl := Option.some.inj present
  rw [planned.uses, (Solution.options_of_mem valid listed checked).1]
  exact use

private theorem located_of_resolution {m : Mark} {b : Binding}
    (resolved : (m, some b) ∈ (Environment.ofOptions options).resolutions (p.analysis d))
    (same : b.symbol = plan.symbol) :
    ∃ u ∈ plan.located s, u.place = ⟨d.path, m.token.range⟩ := by
  obtain ⟨_, planned⟩ := plan_eq_ok made
  obtain ⟨declared, declaration, seen⟩ := Option.bind_eq_some_iff.mp planned.visible
  by_cases hidden : plan.symbol.isPrivateToFile ∧ declared.file.Same document.path
  · rw [if_pos hidden] at seen
    obtain ⟨u, use, symbol, place⟩ := Environment.exists_use resolved
    have fileUse := located_in_document valid plain member made listed inside checked resolved same hidden.1 declaration
      hidden.2 use
    refine ⟨u, ?_, place⟩
    rw [Plan.located, ← Option.some.inj seen]
    exact List.mem_filter.mpr ⟨fileUse, by simp [symbol, same]⟩
  · rw [if_neg hidden] at seen
    have searched := searched_of_resolution valid plain listed inside checked resolved (same ▸ declaration)
    have own := (Solution.options_of_mem valid listed checked).2.1
    obtain ⟨u, use, -, place⟩ := Environment.exists_reported (own ▸ List.mem_map_of_mem inside) resolved
    rw [same] at searched use
    have reported : u ∈ s.reported plan.symbol p.id := by
      rw [Solution.reported, checked]
      exact use
    refine ⟨u, ?_, place⟩
    generalize s.projectsContaining declared.file = ids at seen searched
    cases ids with
    | nil => cases seen
    | cons first rest =>
      rw [Plan.located, ← Option.some.inj seen]
      exact List.mem_flatMap.mpr ⟨p.id, searched, reported⟩

private theorem mark_of_range {r : Range} (found : r ∈ d.rangesOf (plan.located s)) :
    ∃ m b, (m, some b) ∈ (Environment.ofOptions options).resolutions (p.analysis d) ∧ m.token.range = r ∧
      (b.symbol.name = plan.symbol.name → b.symbol = plan.symbol) := by
  obtain ⟨u, located, here, rfl⟩ := Document.mem_rangesOf.mp found
  have owned := symbol_of_located valid plain member made located
  obtain ⟨-, q, e, reported⟩ := mem_located valid member made located
  obtain ⟨project, among, settings, present, m, b, resolved, symbol, place⟩ := reported
  rw [place] at here
  obtain rfl : d = e := plain.eq_of_same (List.mem_flatMap.mpr ⟨p, listed, inside⟩)
    (List.mem_flatMap.mpr ⟨q, project, among⟩) here
  obtain rfl := valid.project_unique listed project inside among
  obtain rfl := Option.some.inj (checked.symm.trans present)
  exact ⟨m, b, resolved, by rw [place], symbol ▸ owned⟩

private theorem range_of_mark {m : Mark} {b : Binding}
    (resolved : (m, some b) ∈ (Environment.ofOptions options).resolutions (p.analysis d))
    (same : b.symbol = plan.symbol) : m.token.range ∈ d.rangesOf (plan.located s) := by
  obtain ⟨u, located, place⟩ := located_of_resolution valid plain member made listed inside checked resolved same
  refine Document.mem_rangesOf.mpr ⟨u, located, ?_, ?_⟩
  · rw [place]
    exact .refl _
  · rw [place]

/-- In each document, the identifiers that stand for the planned symbol are replaced and nothing else. -/
theorem accepted_of_plan : Rename.accepted d.text plan.symbol.name (d.rangesOf (plan.located s)) =
    ((lex d.text p.configuration.defines).tokens.filter (s.standing plan.symbol p d).contains).map (·.span) := by
  have order := lex_sublist d.text p.configuration.defines
  refine Rename.accepted_of_identifiers (nodup_ranges d _) ?_ (List.filter_sublist.trans order) ?_
  · intro r found
    obtain ⟨m, b, resolved, range, -⟩ := mark_of_range valid plain member made listed inside checked found
    obtain ⟨token, identifier⟩ := identifier_of_mark (Environment.name_of_resolution resolved).1
    exact ⟨m.token, ⟨order.subset token, identifier⟩, range⟩
  · intro t known
    rw [List.mem_filter, List.contains_iff_mem, Solution.mem_standing checked]
    constructor
    · rintro ⟨-, m, b, resolved, same, rfl⟩
      obtain ⟨marked, named⟩ := Environment.name_of_resolution resolved
      exact ⟨(identifier_of_mark marked).2, range_of_mark valid plain member made listed inside checked resolved same,
        by rw [← named, same]⟩
    · rintro ⟨-, found, named⟩
      obtain ⟨m, b, resolved, range, only⟩ := mark_of_range valid plain member made listed inside checked found
      obtain ⟨marked, standing⟩ := Environment.name_of_resolution resolved
      obtain ⟨token, -⟩ := identifier_of_mark marked
      obtain rfl := eq_of_range (order.subset token) known range
      exact ⟨token, m, b, resolved, only (standing.trans named), rfl⟩

end Service

end CrossRef
