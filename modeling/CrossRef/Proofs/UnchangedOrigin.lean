import CrossRef.Proofs.EditHistory
import CrossRef.Proofs.HiddenSymbols

/-! When the check that a plan keeps may stand in for a new one. What only its file can see is found in the file
before anything else is looked at, so other documents may change at will. They matter only for the names that the
file does not bind itself: such a name is reported under the same identity if a project that is referred to lists the
file too and makes there public what is private here. -/

namespace CrossRef
open Check Syntax

namespace Check.Environment

def Unseen (keep : Symbol → Bool) (options : Options) (path : Path) : Prop :=
  ∀ b, Sees options path b → keep b.symbol = false

variable {keep : Symbol → Bool} {options others : Options} {path : Path}

private theorem Unseen.of_private (options : Options) (path : Path) (keep : Symbol → Bool) :
    Unseen (fun symbol => symbol.isPrivateToFile && keep symbol) options path := by
  intro b seen
  simp [seen.isPrivateToFile]

private theorem filter_usesAt_of_not {b : Binding} (dropped : keep b.symbol = false) (r : Reference) :
    (usesAt path r (some b)).filter (fun u => keep u.symbol) = [] := by
  simp only [usesAt]
  split <;> simp [dropped]

private theorem filter_usesAt (unseen : Unseen keep options path) (before : List Binding) (r : Reference) :
    (usesAt path r ((ofOptions options).resolve? path (.ofList before) r)).filter (fun u => keep u.symbol) =
      (usesAt path r ((before.filter (·.covers r.offset)).find? (·.symbol.name = r.name))).filter
        fun u => keep u.symbol := by
  rw [resolve?_eq_find?]
  cases found : (candidates options path before r.offset).find? (·.symbol.name = r.name) with
  | none =>
    rw [candidates, List.append_assoc, List.find?_append, Option.or_eq_none_iff] at found
    rw [found.1]
  | some b =>
    rcases find?_candidates_cases found with own | ⟨none, seen⟩
    · rw [own]
    · rw [none]
      exact filter_usesAt_of_not (unseen b seen) r

private theorem filter_usesFrom (unseen : Unseen keep options path) (other : Unseen keep others path)
    (before : List Binding)
    (marks : List Mark) : ((ofOptions options).usesFrom path (.ofList before) marks).filter (fun u => keep u.symbol) =
      ((ofOptions others).usesFrom path (.ofList before) marks).filter fun u => keep u.symbol := by
  -- Both checks meet the same bindings on their way.
  induction marks generalizing before with
  | nil => rfl
  | cons mark rest ih =>
    cases mark with
    | binding b =>
      simp only [usesFrom, ← OwnBindings.ofList_cons]
      rw [List.filter_cons, List.filter_cons, ih]
    | reference r =>
      simp only [usesFrom, List.filter_append]
      rw [filter_usesAt unseen, filter_usesAt other, ih]

/-- Of what a file does not see from outside, all checks of the file report the same uses. -/
theorem filter_uses (file : Analysis) (unseen : Unseen keep options file.path) (other : Unseen keep others file.path) :
    ((ofOptions options).uses file).filter (fun u => keep u.symbol) =
      ((ofOptions others).uses file).filter fun u => keep u.symbol :=
  filter_usesFrom unseen other [] file.marks

end Check.Environment

namespace Solution

/-- A project that this one refers to directly declares a public name of an identity. -/
def Publishes (s : Solution) (project : ProjectId) (id : SymbolId) : Prop :=
  ∃ p ∈ s.projects, p.id = project ∧ ∃ r ∈ s.referenced p, ∃ d ∈ r.documents, ∃ b ∈ (r.analysis d).bindings,
    b.symbol.isLocal = false ∧ b.symbol.access = .everywhere ∧ b.symbol.id = id

instance (s : Solution) (project : ProjectId) (id : SymbolId) : Decidable (s.Publishes project id) :=
  inferInstanceAs (Decidable (∃ p ∈ s.projects, p.id = project ∧ ∃ r ∈ s.referenced p, ∃ d ∈ r.documents,
    ∃ b ∈ (r.analysis d).bindings, b.symbol.isLocal = false ∧ b.symbol.access = .everywhere ∧ b.symbol.id = id))

variable {s t : Solution} {p : Project} {document : Document}

/-- A document sees its own identities only where a project publishes them, because identities begin with the path. -/
theorem unseen_of_unpublished (valid : WellFormed s) (plain : ∀ d ∈ s.documents, ':' ∉ d.path.text.toList)
    (member : p ∈ s.projects) (listed : document ∈ p.documents) {options : Options}
    (checked : s.options? p.id = some options) {b : Binding} (bound : b ∈ (p.analysis document).bindings)
    (alone : ¬s.Publishes p.id b.symbol.id) :
    Environment.Unseen (fun symbol => symbol.id = b.symbol.id) options document.path := by
  intro c seen
  apply decide_eq_false
  intro same
  rcases origin_of_sees valid member checked seen with
    ⟨e, inside, other, declared, -⟩ | ⟨r, referred, e, inside, declared, shown, access⟩
  · obtain ⟨-, -, _, _, made, -⟩ := symbol_of_binding bound
    obtain ⟨-, -, _, _, makes, -⟩ := symbol_of_binding declared
    have paths : e.path = document.path :=
      path_of_identity (plain e (List.mem_flatMap.mpr ⟨p, member, inside⟩))
        (plain document (List.mem_flatMap.mpr ⟨p, member, listed⟩)) (makes.symm.trans (same.trans made))
    exact other (paths ▸ .refl _)
  · exact alone ⟨p, member, rfl, r, referred, e, inside, c, declared, shown, access, same⟩

private theorem plain_of_outline (outline : t.outline = s.outline)
    (plain : ∀ d ∈ s.documents, ':' ∉ d.path.text.toList) :
    ∀ d ∈ t.documents, ':' ∉ d.path.text.toList := by
  intro d member
  have ids : t.documents.map (·.id) = s.documents.map (·.id) := by
    rw [map_id_documents, map_id_documents, outline]
  obtain ⟨e, listed, same⟩ := List.mem_map.mp (ids ▸ List.mem_map_of_mem member : d.id ∈ s.documents.map (·.id))
  have path : e.path = d.path := congrArg DocumentId.path same
  exact path ▸ plain e listed

/-- Edits elsewhere change neither the marks of a document nor the project that it is in. -/
theorem analysis_of_outline (valid : WellFormed s) (later : WellFormed t) (outline : t.outline = s.outline)
    (member : p ∈ s.projects) (listed : document ∈ p.documents) {q : Project} (present : q ∈ t.projects)
    {origin : Document} (inside : origin ∈ q.documents) (same : origin.id = document.id)
    (text : origin.text = document.text) : q.id = p.id ∧ q.analysis origin = p.analysis document := by
  have projects : q.id = p.id := by
    rw [← later.owned q present origin inside, same, valid.owned p member document listed]
  obtain ⟨r, among, equal⟩ := List.mem_map.mp (outline ▸ List.mem_map_of_mem present : q.outline ∈ s.outline)
  obtain rfl := valid.eq_of_id among member ((congrArg Project.Outline.id equal).trans projects)
  have configuration : r.configuration = q.configuration := congrArg Project.Outline.configuration equal
  refine ⟨projects, ?_⟩
  rw [Project.analysis, Project.analysis, text, configuration, Document.path, same]
  rfl

private theorem check_of_plan (valid : WellFormed s) (member : p ∈ s.projects) (listed : document ∈ p.documents)
    {options : Options} {plan : Plan} (made : plan.MadeAt s document options)
    (hidden : plan.symbol.isPrivateToFile = true) :
    s.options? p.id = some options ∧ plan.fileUses = (Environment.ofOptions options).uses (p.analysis document) ∧
      plan.visibility = .currentDocument ∧ ∃ b ∈ (p.analysis document).bindings, plan.symbol = b.symbol := by
  have checked : s.options? p.id = some options := valid.owned p member document listed ▸ made.present
  have uses : plan.fileUses = (Environment.ofOptions options).uses (p.analysis document) := by
    rw [made.uses, (options_of_mem valid member checked).1]
    rfl
  obtain ⟨u, reported, symbol⟩ := made.reported
  obtain ⟨m, b, stands, own, -⟩ := Environment.mem_uses (uses ▸ reported)
  have symbol : plan.symbol = b.symbol := symbol.symm.trans own
  rw [symbol] at hidden
  have bound := Environment.own_of_private hidden stands
  have visible := made.visible
  rw [symbol, visibility?_of_private bound hidden] at visible
  exact ⟨checked, uses, (Option.some.inj visible).symm, b, bound, symbol⟩

end Solution

/-- A plan for a symbol that only its file can see, carried to a later solution in which the document of the plan is
as it was. A new check of the document succeeds there, and it reports the same uses of what only the file can see. If
neither solution publishes the identity of the symbol to the project, these are all uses of the symbol, so that the
plan locates what it would locate after a new check. -/
theorem unchanged_origin_needs_no_check {s : Solution} (run : Reachable s)
    (plain : ∀ d ∈ s.documents, ':' ∉ d.path.text.toList) {document : Document} (known : document ∈ s.documents)
    {lookup : Lookup} {span : Span} {strategy : Rename.Strategy} {change : String → String} {plan : Plan}
    (made : ((Service.plain lookup).plan s document span strategy change).run = .ok (some plan))
    (hidden : plan.symbol.isPrivateToFile = true) (edits : List Edit) {origin : Document}
    (kept : origin ∈ (s.editedBy edits).documents) (same : origin.id = plan.document)
    (version : origin.version = plan.version) (text : origin.text = plan.text) :
    let t := s.editedBy edits
    ∃ fresh, ((Service.plain lookup).checkDocument t origin).run = .ok (some fresh) ∧
      (usesOf plan.symbol plan.fileUses).filter (·.symbol.isPrivateToFile) =
        (usesOf plan.symbol fresh).filter (·.symbol.isPrivateToFile) ∧
      (¬s.Publishes plan.document.project plan.symbol.id → ¬t.Publishes plan.document.project plan.symbol.id →
        usesOf plan.symbol plan.fileUses = usesOf plan.symbol fresh ∧
        (t.document? plan.document = some origin → ((Service.plain lookup).locations plan t false).run =
          .ok (groupByDocument (distinctPlaces (usesOf plan.symbol fresh)) t))) := by
  intro t
  have valid := run.wellFormed
  have later : WellFormed t := valid.editedBy edits
  have outline : t.outline = s.outline := s.outline_editedBy edits
  obtain ⟨p, member, listed⟩ := List.mem_flatMap.mp known
  obtain ⟨q, present, inside⟩ := List.mem_flatMap.mp kept
  obtain ⟨options, whole⟩ := Service.plan_eq_ok made
  obtain ⟨checked, stored, scope, b, bound, symbol⟩ := Solution.check_of_plan valid member listed whole hidden
  obtain ⟨others, rechecked, fresh⟩ := Service.exists_checkDocument later present inside lookup
  -- The new check reads the same marks; only what else it sees may differ.
  have ids : origin.id = document.id := same.trans whole.origin
  obtain ⟨projects, file⟩ :=
    Solution.analysis_of_outline valid later outline member listed present inside ids (text.trans whole.text)
  refine ⟨_, fresh, ?_, ?_⟩
  · rw [stored, file, usesOf, usesOf, List.filter_filter, List.filter_filter]
    exact Environment.filter_uses (p.analysis document)
      (.of_private options _ fun symbol => symbol.id = plan.symbol.id) (.of_private others _ _)
  · intro before after
    have home : plan.document.project = p.id := by rw [whole.origin, valid.owned p member document listed]
    rw [home, symbol] at before after
    have unseen := Solution.unseen_of_unpublished valid plain member listed checked bound before
    have path : origin.path = document.path := congrArg DocumentId.path ids
    have unseenLater := Solution.unseen_of_unpublished later (Solution.plain_of_outline outline plain) present inside
      rechecked (file ▸ bound) (projects ▸ after)
    rw [path] at unseenLater
    have alike : usesOf plan.symbol plan.fileUses =
        usesOf plan.symbol ((Environment.ofOptions others).uses (q.analysis origin)) := by
      rw [stored, symbol, file]
      exact Environment.filter_uses (p.analysis document) unseen unseenLater
    refine ⟨alike, ?_⟩
    intro found
    rw [Service.locations_plain found version text, Plan.located, scope, alike]

namespace Sample

/-! A file that a library and its user list both. The library makes the name public that is private to the user, where
it stands once before its declaration. -/

def twin (project : ProjectId) (text : String) : Document :=
  .ofText ⟨project, .ofText "twin.ml"⟩ text

def twinText : String := "#if LIB\nlet x = 1\n#else\nx\nlet private x = x\n#endif"

def twinUser : Project := .ofDocuments "App" ⟨[], ["Lib"]⟩ [twin "App" twinText]

def twinOwner (d : Document) : Project := .ofDocuments "Lib" ⟨["LIB"], []⟩ [d]

def twins (text : String) : Solution :=
  let projects := [twinUser, twinOwner (twin "Lib" text)]
  ⟨projects, .ofProjects projects, 0⟩

def editTwin (text : String) : Edit := ⟨(twin "Lib" "").id, text⟩

private theorem twins_reachable {text : String}
    (success : Solution.build [twinUser, twinOwner (twin "Lib" text)] = .ok (twins text)) : Reachable (twins text) := by
  refine .built ?_ success
  simp only [List.forall_mem_cons, Project.Sound, twinUser, twinOwner, Project.ofDocuments]
  exact ⟨⟨⟨rfl, rfl⟩, List.forall_mem_nil _⟩, ⟨⟨rfl, rfl⟩, List.forall_mem_nil _⟩, List.forall_mem_nil _⟩

private def twinOptions (d : Document) : Options := twinUser.options [(twinOwner d).options []]

private def twinPath : Path := (twin "" "").path

private def hiddenToken : Token := ⟨.word, ⟨38, 1⟩, 4, 12, "x"⟩

private def hiddenBinding : Binding :=
  ⟨symbolOf twinPath "" (Tally.empty.count ("", "x")) hiddenToken .value .ownFile false, hiddenToken, none⟩

private def shownToken : Token := ⟨.word, ⟨12, 1⟩, 1, 4, "x"⟩

private def shownBinding : Binding :=
  ⟨symbolOf twinPath "" (Tally.empty.count ("", "x")) shownToken .value .everywhere false, shownToken, none⟩

private def referenceBefore : Reference := ⟨⟨.word, ⟨24, 1⟩, 3, 0, "x"⟩, .use⟩

private def referenceBehind : Reference := ⟨⟨.word, ⟨42, 1⟩, 4, 16, "x"⟩, .use⟩

private def foundBefore (d : Document) : Option Binding :=
  (Environment.candidates (twinOptions d) twinPath [] referenceBefore.offset).find? (·.symbol.name = referenceBefore.name)

private def usesInTwin (found : Option Binding) : List Use :=
  Environment.usesAt twinPath referenceBefore found ++
    [⟨hiddenBinding.symbol, ⟨twinPath, hiddenToken.range⟩, .definition⟩,
      ⟨hiddenBinding.symbol, ⟨twinPath, referenceBehind.token.range⟩, .use⟩]

private theorem uses_in_twin (d : Document) :
    (Environment.ofOptions (twinOptions d)).uses (twinUser.analysis (twin "App" twinText)) =
      usesInTwin (foundBefore d) := by
  have marks : (twinUser.analysis (twin "App" twinText)).marks =
      [.reference referenceBefore, .binding hiddenBinding, .reference referenceBehind] := rfl
  have before : (Environment.ofOptions (twinOptions d)).resolve? (twinUser.analysis (twin "App" twinText)).path .empty
      referenceBefore = foundBefore d :=
    Environment.resolve?_eq_find? _ _ [] _
  have behind : (Environment.ofOptions (twinOptions d)).resolve? (twinUser.analysis (twin "App" twinText)).path
      (OwnBindings.empty.add hiddenBinding) referenceBehind = some hiddenBinding :=
    (Environment.resolve?_eq_find? _ _ [hiddenBinding] _).trans rfl
  rw [Environment.uses, marks]
  simp only [Environment.usesFrom, before, behind]
  rfl

private theorem exists_plan_in_twin (text : String) : ∃ plan,
    ((Service.plain .precise).plan (twins text) (twin "App" twinText) ⟨38, 1⟩ .batched fun _ => "y").run =
      .ok (some plan) ∧ plan.symbol = hiddenBinding.symbol ∧ plan.fileUses = usesInTwin (foundBefore (twin "Lib" text)) ∧
      plan.document = (twin "App" "").id ∧ plan.version = 0 ∧ plan.text = twinText := by
  have present : (twins text).options? (twin "App" twinText).id.project = some (twinOptions (twin "Lib" text)) := rfl
  have uses := uses_in_twin (twin "Lib" text)
  generalize foundBefore (twin "Lib" text) = found at uses ⊢
  have hit : useAt? (usesInTwin found) 4 13 "let private x = x" ["x"] =
      some ⟨hiddenBinding.symbol, ⟨twinPath, hiddenToken.range⟩, .definition⟩ := by
    simp only [useAt?, List.getLast?_singleton, Option.bind_eq_bind, Option.bind_some, usesInTwin]
    have skipped : ∀ u ∈ Environment.usesAt twinPath referenceBefore found, u.place.range.start.line = 3 := by
      intro u member
      cases found with
      | none => cases member
      | some b =>
        obtain rfl := List.mem_singleton.mp member
        rfl
    rw [List.find?_append, List.find?_eq_none.mpr, Option.none_or]
    · exact List.find?_cons_of_pos (by decide)
    · intro u member
      simp [skipped u member]
  have narrowed : narrow twinText ⟨38, 1⟩ = ⟨38, 1⟩ := by decide
  have pointed : candidateAt twinText (narrow twinText ⟨38, 1⟩).start [] .precise =
      some ⟨⟨38, 1⟩, false, 4, 12, 13, "let private x = x", ["x"]⟩ := by
    rw [narrowed]
    decide
  obtain ⟨resolved, answer, use⟩ :=
    Service.resolveAt_of_use present rfl (by decide) pointed (uses ▸ hit)
  have symbol : resolved.use.symbol = hiddenBinding.symbol := by rw [use]
  have seen : resolved.use.symbol.visibility? (twin "App" twinText) (twins text) = some .currentDocument := by
    rw [symbol]
    rfl
  have made := Service.plan_of_resolved (by decide) (by decide : Span.slice? ⟨38, 1⟩ twinText = some "x") (by decide)
    answer seen .batched fun _ => "y"
  obtain ⟨options, whole⟩ := Service.plan_eq_ok made
  obtain rfl := Option.some.inj (present.symm.trans whole.present)
  exact ⟨_, made, symbol, whole.uses.trans uses, rfl, rfl, rfl⟩

private theorem uses_of_hidden {found : Option Binding} (same : ∀ b ∈ found, b.symbol.id = hiddenBinding.symbol.id) :
    usesOf hiddenBinding.symbol (usesInTwin found) = usesInTwin found := by
  refine List.filter_eq_self.mpr ?_
  intro u member
  apply decide_eq_true
  simp only [usesInTwin, List.mem_append, List.mem_cons, List.not_mem_nil, or_false] at member
  rcases member with before | rfl | rfl
  · cases found with
    | none => cases before
    | some b =>
      obtain rfl := List.mem_singleton.mp before
      exact same b rfl
  · rfl
  · rfl

/-- Without a text, the library publishes nothing, so the name before its declaration stands for nothing. -/
theorem published_name_goes_stale :
    let s := twins twinText
    let t := s.editedBy [editTwin ""]
    Reachable s ∧ (∀ d ∈ s.documents, ':' ∉ d.path.text.toList) ∧ twin "App" twinText ∈ s.documents ∧
    ∃ plan origin fresh,
      ((Service.plain .precise).plan s (twin "App" twinText) ⟨38, 1⟩ .batched fun _ => "y").run = .ok (some plan) ∧
      plan.symbol.isPrivateToFile = true ∧ t.document? plan.document = some origin ∧
      origin.version = plan.version ∧ origin.text = plan.text ∧
      ((Service.plain .precise).checkDocument t origin).run = .ok (some fresh) ∧
      usesOf plan.symbol plan.fileUses ≠ usesOf plan.symbol fresh := by
  intro s t
  have run : Reachable s := twins_reachable (by decide)
  obtain ⟨plan, made, symbol, stored, origin, version, text⟩ := exists_plan_in_twin twinText
  refine ⟨run, by decide, List.mem_cons_self .., plan, twin "App" twinText, usesInTwin none, made,
    ?_, ?_, version.symm, text.symm, ?_, ?_⟩
  · rw [symbol]
    rfl
  · rw [origin]
    rfl
  · have uses := uses_in_twin ((twin "Lib" twinText).withText "")
    have nothing : foundBefore ((twin "Lib" twinText).withText "") = none := rfl
    rw [Service.checkDocument_eq, ← nothing, ← uses]
    rfl
  · have shown : foundBefore (twin "Lib" twinText) = some shownBinding := rfl
    rw [symbol, stored, shown, uses_of_hidden (by rintro _ ⟨⟩; rfl), uses_of_hidden (by rintro _ ⟨⟩)]
    intro same
    exact absurd (congrArg List.length same) (by decide)

/-- A library that publishes another name may change at will. -/
theorem unpublished_name_stays_fresh :
    let s := twins "let y = 1"
    let t := s.editedBy [editTwin ""]
    ∃ plan fresh,
      ((Service.plain .precise).plan s (twin "App" twinText) ⟨38, 1⟩ .batched fun _ => "y").run = .ok (some plan) ∧
      ((Service.plain .precise).checkDocument t (twin "App" twinText)).run = .ok (some fresh) ∧
      usesOf plan.symbol plan.fileUses = usesOf plan.symbol fresh ∧ (usesOf plan.symbol fresh).length = 2 ∧
      ((Service.plain .precise).locations plan t false).run =
        .ok (groupByDocument (distinctPlaces (usesOf plan.symbol fresh)) t) := by
  intro s t
  have run : Reachable s := twins_reachable (by decide)
  obtain ⟨plan, made, symbol, stored, origin, version, text⟩ := exists_plan_in_twin "let y = 1"
  have hidden : plan.symbol.isPrivateToFile = true := by rw [symbol]; rfl
  have kept : twin "App" twinText ∈ t.documents := List.mem_cons_self ..
  obtain ⟨fresh, checked, -, alike⟩ := unchanged_origin_needs_no_check run (by decide)
    (List.mem_cons_self ..) made hidden [editTwin ""] kept origin.symm version.symm text.symm
  rw [origin, symbol] at alike
  obtain ⟨same, located⟩ := alike (by decide) (by decide)
  have nothing : foundBefore (twin "Lib" "let y = 1") = none := rfl
  have count : (usesOf hiddenBinding.symbol fresh).length = 2 := by
    rw [← same, stored, nothing, uses_of_hidden (by rintro _ ⟨⟩)]
    rfl
  rw [← symbol] at same count located
  exact ⟨plan, fresh, made, checked, same, count, located rfl⟩

end Sample

end CrossRef
