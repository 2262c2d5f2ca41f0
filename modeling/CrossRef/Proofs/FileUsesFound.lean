import CrossRef.Proofs.HiddenSymbols
import CrossRef.Proofs.SessionHistory

/-! What a search in one file finds, the search in the whole solution finds too. The project of the file is always
searched: it declares the symbol, or it refers to a project that does, and then the symbol is public and the
project depends on one that lists the declaring file. A symbol that only its file can see is looked for in the
very check that the first search has made. -/

namespace CrossRef
open Check

namespace Solution

variable {s : Solution} {p : Project} {document : Document} {options : Options}

/-- Where the uses of a symbol are looked for that a document of a project refers to. -/
theorem visible_from_document (valid : WellFormed s) (member : p ∈ s.projects) (listed : document ∈ p.documents)
    (checked : s.options? p.id = some options) {m : Mark} {b : Binding}
    (stands : (m, some b) ∈ (Environment.ofOptions options).resolutions (p.analysis document)) :
    b.symbol.visibility? document s = some .currentDocument ∨
      ∃ ids isInternal, b.symbol.visibility? document s = some (.projects ids isInternal) ∧
        p.id ∈ (Visibility.projects ids isInternal).searchedProjects s := by
  cases closed : b.symbol.isPrivateToFile with
  | true => exact .inl (visibility?_of_private (Environment.own_of_private closed stands) closed)
  | false =>
    have declared : ∀ e ∈ p.documents, b ∈ (p.analysis e).bindings →
        ∃ ids isInternal, b.symbol.visibility? document s = some (.projects ids isInternal) ∧
          p.id ∈ (Visibility.projects ids isInternal).searchedProjects s := by
      intro e inside bound
      have owner : p.id ∈ s.projectsContaining e.path :=
        valid.mem_projectsContaining.mpr ⟨p, member, rfl, e, inside, .refl _⟩
      exact ⟨_, _, visibility?_of_shown valid member inside bound closed,
        Visibility.mem_searchedProjects.mpr ⟨p.id, owner, .inl rfl⟩⟩
    rcases origin_of_resolution valid member checked stands with own | ⟨e, inside, bound, -⟩ |
      ⟨r, referred, e, inside, bound, -, access⟩
    · exact .inr (declared document listed own)
    · exact .inr (declared e inside bound)
    · obtain ⟨known, refers, different⟩ := mem_referenced referred
      have owner : r.id ∈ s.projectsContaining e.path :=
        valid.mem_projectsContaining.mpr ⟨r, known, rfl, e, inside, .refl _⟩
      have depends := mem_dependents member refers different
      refine .inr ⟨_, _, visibility?_of_shown valid known inside bound closed, ?_⟩
      exact Visibility.mem_searchedProjects.mpr ⟨r.id, owner, .inr ⟨by rw [access]; rfl, depends⟩⟩

/-- The check of a project reports what the check of one of its documents does. -/
theorem reported_of_fileUses (valid : WellFormed s) (member : p ∈ s.projects) (listed : document ∈ p.documents)
    (checked : s.options? p.id = some options) {symbol : Symbol} {u : Use}
    (inside : u ∈ usesOf symbol ((Environment.ofOptions options).uses (p.analysis document))) :
    u ∈ s.reported symbol p.id := by
  obtain ⟨use, same⟩ := List.mem_filter.mp inside
  have own := (options_of_mem valid member checked).2.1
  have file : p.analysis document ∈ Environment.analyses options := own ▸ List.mem_map_of_mem listed
  rw [reported, checked]
  exact List.mem_filter.mpr ⟨List.mem_flatMap.mpr ⟨_, file, use⟩, same⟩

end Solution

namespace Service

variable {lookup : Syntax.Lookup} {s : Solution}

private theorem resolved_of_fileUses {cursor : Cursor} {uses : List Use}
    (found : ((plain lookup).fileUses s cursor).run = .ok (some uses)) :
    ∃ d resolved, s.document? cursor.document = some d ∧
      ((plain lookup).resolveAt s d cursor.offset).run = .ok (some resolved) ∧
      uses = usesOf resolved.use.symbol resolved.fileUses := by
  obtain ⟨d, present, found⟩ := run_bind_eq_ok found
  obtain ⟨outcome, pointed, made⟩ := run_bind_eq_ok found
  obtain ⟨resolved, rfl, same⟩ := Option.map_eq_some_iff.mp (Except.ok.inj made)
  exact ⟨d, resolved, Solution.document?_of_find present, pointed, same.symm⟩

private theorem exists_usesAcross (valid : WellFormed s) {p : Project} (member : p ∈ s.projects) {d : Document}
    (listed : d ∈ p.documents) {offset : Nat} {resolved : ResolvedUse}
    (found : ((plain lookup).resolveAt s d offset).run = .ok (some resolved)) :
    ∃ visibility groups, resolved.use.symbol.visibility? d s = some visibility ∧
      ((plain lookup).usesAcross resolved.use.symbol visibility (usesOf · resolved.fileUses) s false).run = .ok groups ∧
      ∀ u ∈ usesOf resolved.use.symbol resolved.fileUses,
        ∃ group ∈ groups, group.document.Same d.id ∧ ∃ v ∈ group.uses, v.place.range = u.place.range := by
  obtain ⟨options, m, b, checked, uses, stands, symbol⟩ := Solution.resolution_of_resolveAt valid member listed found
  have document : d ∈ s.documents := List.mem_flatMap.mpr ⟨p, member, listed⟩
  have grouped : ∀ searched : List Use, (∀ u ∈ usesOf resolved.use.symbol resolved.fileUses, u ∈ searched) →
      ∀ u ∈ usesOf resolved.use.symbol resolved.fileUses, ∃ group ∈ groupByDocument (distinctPlaces searched) s,
        group.document.Same d.id ∧ ∃ v ∈ group.uses, v.place.range = u.place.range := by
    intro searched all u inside
    obtain ⟨_, _, _, _, place⟩ := Environment.mem_uses (uses ▸ List.mem_of_mem_filter inside)
    have file : d.path.Same u.place.file := by
      rw [place]
      exact .refl _
    obtain ⟨group, among, heads, v, within, -, key⟩ := exists_group_at valid (all u inside) document file
    exact ⟨group, among, heads, v, within, congrArg Prod.snd key⟩
  rw [symbol] at grouped ⊢
  rcases Solution.visible_from_document valid member listed checked stands with here | ⟨ids, isInternal, seen, searched⟩
  · exact ⟨_, _, here, rfl, grouped _ fun u inside => inside⟩
  · refine ⟨_, _, seen, usesAcross_projects .., grouped _ ?_⟩
    intro u inside
    rw [uses] at inside
    exact List.mem_flatMap.mpr ⟨p.id, searched, Solution.reported_of_fileUses valid member listed checked inside⟩

private theorem exists_references (valid : WellFormed s) {cursor : Cursor} {uses : List Use}
    (found : ((plain lookup).fileUses s cursor).run = .ok (some uses)) :
    ∃ d references, s.document? cursor.document = some d ∧
      ((plain lookup).references s cursor false).run = .ok (some references) ∧
      ∀ u ∈ uses, ∃ group ∈ references.documents, group.document.Same d.id ∧
        ∃ v ∈ group.uses, v.place.range = u.place.range := by
  obtain ⟨d, resolved, present, pointed, rfl⟩ := resolved_of_fileUses found
  obtain ⟨p, owner, inside⟩ := Option.bind_eq_some_iff.mp present
  have member := (Solution.mem_of_project? owner).1
  obtain ⟨visibility, groups, seen, searched, all⟩ :=
    exists_usesAcross valid member (List.mem_of_find?_eq_some inside) pointed
  refine ⟨d, ⟨resolved.use.symbol, visibility, groups.map fun group =>
    { group with uses := group.uses.mergeSort fun u v => (compare u.place v.place).isLE }⟩, present, ?_, ?_⟩
  · unfold Service.references
    refine (run_bind_of_ok (Solution.find_of_document? present) _).trans ?_
    refine (run_bind_of_ok pointed _).trans ?_
    simp only [seen]
    exact run_bind_of_ok searched _
  · intro u inside
    obtain ⟨group, among, heads, v, within, range⟩ := all u inside
    exact ⟨_, List.mem_map_of_mem among, heads, v, List.mem_mergeSort.mpr within, range⟩

end Service

namespace Session

variable {lookup : Syntax.Lookup} {session : Session} {cursor : Cursor} {uses : List Use}

private theorem fileUses_of_reply
    (replied : (session.move (.plain lookup) (.request (.fileUses cursor))).1 = .ok (.uses (some uses))) :
    ((Service.plain lookup).fileUses session.current cursor).run = .ok (some uses) := by
  simp only [move, step_plain] at replied
  split at replied
  · cases replied
  · next reply answered =>
    cases replied
    obtain ⟨found, searched, made⟩ := Service.run_bind_eq_ok answered
    cases made
    exact searched

private theorem reply_of_fileUses {found : Option (List Use)}
    (searched : ((Service.plain lookup).fileUses session.current cursor).run = .ok found) :
    (session.move (.plain lookup) (.request (.fileUses cursor))).1 = .ok (.uses found) := by
  have answered : (session.ask (.plain lookup) (.fileUses cursor)).run = .ok (.uses found) :=
    Service.run_bind_of_ok searched _
  simp only [move, step_plain, answered]

private theorem move_fileUses (session : Session) (cursor : Cursor) :
    (session.move (.plain lookup) (.request (.fileUses cursor))).2 = session := by
  simp only [move, step_plain]
  split <;> rfl

private theorem reply_of_references {references : Option References}
    (found : ((Service.plain lookup).references session.current cursor false).run = .ok references) :
    (session.move (.plain lookup) (.request (.references cursor false))).1 = .ok (.references references) := by
  have answered : (session.ask (.plain lookup) (.references cursor false)).run = .ok (.references references) :=
    Service.run_bind_of_ok found _
  simp only [move, step_plain, answered]

end Session

/-- Whatever a session has done before: if the uses of the symbol at a cursor are found in its document, then the
search in the solution finds the symbol too, and it lists each of these uses under that document. -/
theorem fileUses_among_references {base : Solution} (built : Reachable base) (lookup : Syntax.Lookup)
    (strategy : Rename.Strategy) (lifetime capacity : Nat) (delays : List Nat) (moves : List Move)
    (kept : ∀ move ∈ moves, move.Keeps base) (cursor : Cursor) (uses : List Use) :
    let played := Session.remembered lookup strategy lifetime capacity delays base
    let replies := (played (moves ++ [.request (.fileUses cursor), .request (.references cursor false)])).1
    replies[moves.length]? = some (.ok (.uses (some uses))) →
      ∃ d references, (played moves).2.current.document? cursor.document = some d ∧
        replies[moves.length + 1]? = some (.ok (.references (some references))) ∧
        ∀ u ∈ uses, ∃ group ∈ references.documents, group.document.Same d.id ∧
          ∃ v ∈ group.uses, v.place.range = u.place.range := by
  intro played replies replied
  have valid := built.wellFormed
  have longer : ∀ move ∈ moves ++ [.request (.fileUses cursor), .request (.references cursor false)],
      move.Keeps base := by
    intro move member
    rcases List.mem_append.mp member with earlier | last
    · exact kept move earlier
    · simp only [List.mem_cons, List.not_mem_nil, or_false] at last
      rcases last with rfl | rfl <;> trivial
  have reached : played moves = Session.play (.plain lookup) ⟨base, [], strategy⟩ moves :=
    Session.remembered_eq valid lookup strategy lifetime capacity delays kept
  have plain : replies = (Session.play (.plain lookup) ⟨base, [], strategy⟩ _).1 :=
    congrArg Prod.fst (Session.remembered_eq valid lookup strategy lifetime capacity delays longer)
  have start : base.Akin (Session.mk base [] strategy).current := ⟨valid, rfl⟩
  have held : base.Akin (played moves).2.current := by
    rw [reached]
    exact Session.akin_play start kept
  rw [plain, Session.reply_of_play, ← reached] at replied
  have found := Session.fileUses_of_reply (Option.some.inj replied)
  obtain ⟨d, references, present, searched, all⟩ := Service.exists_references held.wellFormed found
  refine ⟨d, references, present, ?_, all⟩
  -- The first search leaves the session as it is, so the second one is made on the same solution.
  have same : (Session.play (.plain lookup) ⟨base, [], strategy⟩ (moves ++ [.request (.fileUses cursor)])).2 =
      (played moves).2 := by
    rw [Session.play_plain_append, ← reached]
    exact Session.move_fileUses _ cursor
  have next := @Session.reply_of_play lookup ⟨base, [], strategy⟩ (moves ++ [.request (.fileUses cursor)])
    (.request (.references cursor false)) []
  rw [same, Session.reply_of_references searched, List.append_assoc, List.length_append] at next
  rw [plain]
  exact next

namespace Sample

def clientUse : Use := ⟨declared.symbol, ⟨client.path, reference.token.range⟩, .use⟩

theorem client_resolved : ∃ resolved,
    ((Service.plain .precise).resolveAt solution client 8).run = .ok (some resolved) ∧ resolved.use = clientUse := by
  have present : solution.options? client.id.project = some (app.options [lib.options []]) := rfl
  have pointed : Syntax.candidateAt client.text 8 (app.options [lib.options []]).defines .precise =
      some ⟨⟨8, 1⟩, false, 0, 8, 9, "let b = a", ["a"]⟩ := by decide
  have uses : (Environment.ofOptions (app.options [lib.options []])).uses
      (Analysis.ofText client.path client.text (app.options [lib.options []]).defines) =
        [⟨neighbour.symbol, ⟨client.path, neighbour.token.range⟩, .definition⟩, clientUse] := by
    rw [Environment.uses_eq]
    exact congrArg _ client_resolutions
  have hit : useAt? [⟨neighbour.symbol, ⟨client.path, neighbour.token.range⟩, .definition⟩, clientUse] 0 9
      "let b = a" ["a"] = some clientUse := by
    simp only [useAt?, List.getLast?_singleton, Option.bind_eq_bind, Option.bind_some]
    rw [List.find?_cons_of_neg (by decide)]
    exact List.find?_cons_of_pos (by decide)
  exact Service.resolveAt_of_use present (by decide) (by decide) pointed (uses ▸ hit)

private theorem client_fileUses : ∃ uses,
    ((Service.plain .precise).fileUses solution ⟨client.id, 8⟩).run = .ok (some uses) ∧ clientUse ∈ uses := by
  obtain ⟨resolved, found, use⟩ := client_resolved
  have reported := (Service.resolveAt_plain found).2
  have document : solution.document? client.id = some client := by decide
  refine ⟨_, (Service.run_bind_of_ok (Solution.find_of_document? document) _).trans
    (Service.run_bind_of_ok found _), ?_⟩
  rw [← use]
  exact List.mem_filter.mpr ⟨reported, by simp⟩

theorem client_use_listed : ∃ uses d references, clientUse ∈ uses ∧
    let played := Session.remembered .precise .sequential 5 1 [2] solution
    let replies := (played [.put solution, .request (.fileUses ⟨client.id, 8⟩),
      .request (.references ⟨client.id, 8⟩ false)]).1
    replies[1]? = some (.ok (.uses (some uses))) ∧ replies[2]? = some (.ok (.references (some references))) ∧
      (played [.put solution]).2.current.document? client.id = some d ∧
      ∃ group ∈ references.documents, group.document.Same d.id ∧
        ∃ v ∈ group.uses, v.place.range = clientUse.place.range := by
  have akin : solution.Akin solution := ⟨reachable.wellFormed, rfl⟩
  obtain ⟨uses, found, inside⟩ := client_fileUses
  have replied : (Session.remembered .precise .sequential 5 1 [2] solution [.put solution,
      .request (.fileUses ⟨client.id, 8⟩), .request (.references ⟨client.id, 8⟩ false)]).1[1]? =
        some (.ok (.uses (some uses))) := by
    have kept : ∀ move ∈ [.put solution, .request (.fileUses ⟨client.id, 8⟩),
        .request (.references ⟨client.id, 8⟩ false)], Move.Keeps solution move := by
      simp only [List.forall_mem_cons, Move.Keeps]
      exact ⟨akin, trivial, trivial, List.forall_mem_nil _⟩
    rw [Session.remembered_eq reachable.wellFormed .precise .sequential 5 1 [2] kept]
    refine (Session.reply_of_play ⟨solution, [], .sequential⟩ [.put solution] _ _).trans (congrArg some ?_)
    exact Session.reply_of_fileUses found
  have kept : ∀ move ∈ [Move.put solution], move.Keeps solution := List.forall_mem_singleton.mpr akin
  obtain ⟨d, references, present, searched, all⟩ :=
    fileUses_among_references reachable .precise .sequential 5 1 [2] [.put solution] kept ⟨client.id, 8⟩ uses replied
  exact ⟨uses, d, references, inside, replied, searched, present, all clientUse inside⟩

end Sample

end CrossRef
