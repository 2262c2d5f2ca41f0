import CrossRef.Proofs.LocatedUses
import CrossRef.Proofs.NamedPlaces

/-! The preview of a plan is exact: in the solution that the plan was made for, the uses that it lists are the
ones that are rewritten. None of them is lost on the way from a range to a span, because each stands at an
identifier that has the name of the symbol, and identifiers of one text never overlap, whatever is defined. -/

namespace CrossRef
open Check Syntax

/-- No identifier has one of the signs that divide an identity. -/
def Solution.PlainNames (s : Solution) : Prop :=
  ∀ p ∈ s.projects, ∀ d ∈ p.documents, ∀ t ∈ (lex d.text p.configuration.defines).tokens,
    t.isIdentifier = true → '/' ∉ t.name.toList ∧ '#' ∉ t.name.toList

private theorem slash_not_mem_ownerKey {name : String} (free : '/' ∉ name.toList) (n : Nat) :
    '/' ∉ (ownerKey name n).toList := by
  have digits : '/' ∉ (toString n).toList := not_mem_toString (by decide) n
  simp only [ownerKey, String.toList_append, List.mem_append, not_or]
  exact ⟨⟨free, by decide⟩, digits⟩

theorem Solution.name_of_id {s : Solution} (paths : ∀ d ∈ s.documents, ':' ∉ d.path.text.toList)
    (names : s.PlainNames) {p q : Project} (first : p ∈ s.projects) (second : q ∈ s.projects) {d e : Document}
    (inside : d ∈ p.documents) (among : e ∈ q.documents) {b c : Binding} (bound : b ∈ (p.analysis d).bindings)
    (other : c ∈ (q.analysis e).bindings) (same : b.symbol.id = c.symbol.id) : b.symbol.name = c.symbol.name := by
  have parts : ∀ {p : Project} {d : Document} {b : Binding}, p ∈ s.projects → d ∈ p.documents →
      b ∈ (p.analysis d).bindings → '#' ∉ b.symbol.name.toList ∧
        ∃ home ordinal, b.symbol.id = identity d.path home b.symbol.name ordinal ∧ '/' ∉ home.toList := by
    intro p d b member document bound
    obtain ⟨named, -, home, ordinal, made, owner⟩ := symbol_of_binding bound
    obtain ⟨listed, identifier⟩ := identifier_of_mark (mem_bindings.mp bound)
    refine ⟨named ▸ (names p member d document b.token listed identifier).2, home, ordinal, made, ?_⟩
    rcases owner with rfl | ⟨t, known, identifier, n, rfl⟩
    · simp
    · exact slash_not_mem_ownerKey (names p member d document t known identifier).1 n
  obtain ⟨free, home, ordinal, made, plain⟩ := parts first inside bound
  obtain ⟨freeOther, keeper, number, madeOther, plainOther⟩ := parts second among other
  have equal := made.symm.trans (same.trans madeOther)
  have path := path_of_identity (paths d (List.mem_flatMap.mpr ⟨p, first, inside⟩))
    (paths e (List.mem_flatMap.mpr ⟨q, second, among⟩)) equal
  rw [path] at equal
  exact name_of_identity plain plainOther free freeOther equal

/-- Every use that a plan lists is rewritten, and nothing else is. -/
theorem preview_exact {lookup : Lookup} {s : Solution} (run : Reachable s)
    (texts : ∀ d ∈ s.documents, ∀ e ∈ s.documents, d.path.Same e.path → d.text = e.text) (distinct : s.Distinct)
    (paths : ∀ d ∈ s.documents, ':' ∉ d.path.text.toList) (names : s.PlainNames)
    {document : Document} (member : document ∈ s.documents) {span : Span} {strategy : Rename.Strategy}
    {change : String → String} {plan : Plan}
    (made : ((Service.plain lookup).plan s document span strategy change).run = .ok (some plan)) :
    ∃ groups t, ((Service.plain lookup).locations plan s false).run = .ok groups ∧
      ((Service.plain lookup).apply { plan with strategy := .batched } s false).run = .ok t ∧
      (∀ group ∈ groups, ∃ d e spans, s.document? group.document = some d ∧ t.document? group.document = some e ∧
        group.uses.map (fun u => (LineIndex.ofText d.text).spanOf? u.place.range) = spans.map some ∧
        Rename.Disjoint spans ∧ ∃ sorted, sorted.Perm spans ∧ Rename.Replaced plan.new sorted d.text e.text) ∧
      ∀ d ∈ s.documents, (∀ group ∈ groups, ¬group.document.Same d.id) → t.document? d.id = some d := by
  have valid := run.wellFormed
  have located := Service.locations_of_plan valid distinct member made
  obtain ⟨t, success, after, -, documents⟩ := Service.exists_apply valid distinct member made
  have origin : ∃ q ∈ s.projects, ∃ e ∈ q.documents, ∃ b ∈ (q.analysis e).bindings, plan.symbol = b.symbol := by
    obtain ⟨p, u, reported, same⟩ := Service.symbol_of_plan valid member made
    exact same ▸ reported.binding valid
  have lookups := valid.document?_changed after documents
  refine ⟨_, t, located, success, ?_, ?_⟩
  · intro group inside
    obtain ⟨d, listed, rfl, -⟩ := (mem_groupByDocument valid distinct).mp inside
    have found := valid.document?_of_mem distinct listed rfl
    have standing : ∀ r ∈ ((distinctPlaces (plan.located s)).filter fun u => d.path.Same u.place.file).map
        (·.place.range),
        ∃ t, (t ∈ allTokens d.text ∧ t.isIdentifier = true ∧ t.name = plan.symbol.name) ∧ t.range = r := by
      intro r present
      obtain ⟨u, use, rfl⟩ := List.mem_map.mp present
      obtain ⟨use, here⟩ := List.mem_filter.mp use
      obtain ⟨same, p, e, reported⟩ :=
        Service.mem_located valid member made ((distinctBy_sublist _ _).subset use)
      obtain ⟨t, token, identifier, place, named⟩ := reported.token
      obtain ⟨q, second, f, among, b, bound, symbol⟩ := reported.binding valid
      obtain ⟨r, third, g, inner, c, other, planned⟩ := origin
      rw [place] at here
      have text : d.text = e.text := texts d listed e
        (List.mem_flatMap.mpr ⟨p, reported.project, reported.document⟩) (by simpa using here)
      refine ⟨t, ⟨text ▸ (lex_sublist ..).subset token, identifier, ?_⟩, by rw [place]⟩
      rw [named, symbol, planned]
      rw [symbol, planned] at same
      exact Solution.name_of_id paths names second third among inner bound other same
    obtain ⟨spans, ranges, disjoint, accepted⟩ := Rename.accepts_all (nodup_ranges d _) standing
    rw [List.map_map] at ranges
    refine ⟨d, _, spans, found, by rw [lookups, found, Option.map_some], ranges, disjoint, _, accepted, ?_⟩
    rw [Plan.changed_of_same _ (pairwise_groupByDocument _ s) inside rfl, Plan.edited_text]
    exact Rename.replaced_batched ..
  · intro d listed other
    rw [lookups, valid.document?_of_mem distinct listed rfl, Option.map_some]
    exact congrArg some (Plan.changed_of_not_same _ other)

theorem Sample.preview_library : ∃ plan groups t, plan.new = "c" ∧
    ((Service.plain .precise).plan solution library ⟨4, 1⟩ .batched fun _ => "c").run = .ok (some plan) ∧
    ((Service.plain .precise).locations plan solution false).run = .ok groups ∧
    ((Service.plain .precise).apply { plan with strategy := .batched } solution false).run = .ok t := by
  have distinct : solution.Distinct := by unfold Solution.Distinct; decide
  have names : solution.PlainNames := by unfold Solution.PlainNames; decide
  obtain ⟨plan, made, new, -⟩ := exists_plan
  obtain ⟨groups, t, located, applied, -⟩ :=
    preview_exact reachable (by decide) distinct (by decide) names (by decide) made
  exact ⟨plan, groups, t, new, made, located, applied⟩

end CrossRef
