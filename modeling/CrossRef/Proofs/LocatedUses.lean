import CrossRef.Proofs.GroupedUses
import CrossRef.Proofs.SearchScope

/-! Which uses a plan changes when the checker is the plain one and the solution is the one that the plan was
made for: the uses of the symbol in the searched projects or in the document, once for each place, by document. -/

namespace CrossRef
open Check

def Service.plain (lookup : Syntax.Lookup) : Service Id :=
  ⟨plainChecker, Solution.options?, lookup⟩

def Solution.reported (s : Solution) (symbol : Symbol) (project : ProjectId) : List Use :=
  (s.options? project).elim [] fun options => usesOf symbol (checkProject options)

/-- The uses that a plan is about, in the solution that it was made for. -/
def Plan.located (plan : Plan) (s : Solution) : List Use :=
  match plan.visibility with
  | .currentDocument => usesOf plan.symbol plan.fileUses
  | .projects .. => (plan.visibility.searchedProjects s).flatMap (s.reported plan.symbol)

/-- A plan for a document, made for a use of the symbol that the check of the document reports. -/
structure Plan.MadeAt (plan : Plan) (s : Solution) (document : Document) (options : Options) : Prop where
  present : s.options? document.id.project = some options
  uses : plan.fileUses = (Environment.ofOptions options).uses
    (Analysis.ofText document.path document.text options.defines)
  reported : ∃ u ∈ plan.fileUses, u.symbol = plan.symbol
  origin : plan.document = document.id
  version : plan.version = document.version
  text : plan.text = document.text
  visible : plan.symbol.visibility? document s = some plan.visibility

namespace Service

variable {lookup : Syntax.Lookup} {s : Solution}

private theorem mapM_eq_ok {read : Nat × Except Error (List Use) → Except Error (Nat × List Use)}
    (reads : ∀ number uses, read (number, .ok uses) = .ok (number, uses)) (found : ProjectId → List Use)
    (items : List (ProjectId × Nat)) : (items.map fun item => (item.2, .ok (found item.1))).mapM read =
      .ok (items.map fun item => (item.2, found item.1)) := by
  induction items with
  | nil => rfl
  | cons item rest ih =>
    rw [List.map_cons, List.mapM_cons, reads, ih]
    rfl

theorem gather_eq_ok (projects : List ProjectId) (found : ProjectId → List Use) :
    gather (projects.zipIdx.map fun item => (item.2, .ok (found item.1))) = .ok (projects.flatMap found) := by
  have sorted : (projects.zipIdx.map fun item => (item.2, found item.1)).Pairwise
      fun a b => decide (a.1 ≤ b.1) = true := by
    have numbers : (projects.zipIdx.map Prod.snd).Pairwise (· < ·) := by
      rw [List.zipIdx_map_snd]
      exact List.pairwise_lt_range'
    rw [List.pairwise_map] at numbers ⊢
    exact numbers.imp fun less => decide_eq_true (Nat.le_of_lt less)
  rw [gather, mapM_eq_ok fun _ _ => rfl]
  simp only [bind, Except.bind, pure, Except.pure]
  rw [List.mergeSort_of_pairwise sorted, List.flatMap_map]
  have dropped : projects.zipIdx.flatMap (fun item => found item.1) = projects.flatMap found := by
    rw [← List.flatMap_map, List.zipIdx_map_fst]
  exact congrArg _ dropped

private theorem searchEach_plain (symbol : Symbol) (items : List (ProjectId × Nat)) :
    (plain lookup).searchEach symbol s items =
      items.map fun item => (item.2, .ok (s.reported symbol item.1)) := by
  induction items with
  | nil => rfl
  | cons item rest ih =>
    have here : (plain lookup).usesInProject symbol s item.1 = .ok (s.reported symbol item.1) := by
      simp only [usesInProject, plain, Solution.reported]
      cases s.options? item.1 <;> rfl
    rw [searchEach, here]
    simp only [bind, ih]
    rfl

theorem run_bind_eq_ok {α β : Type} {x : ExceptT Error Id α} {next : α → ExceptT Error Id β} {result : β}
    (success : (x >>= next).run = .ok result) : ∃ value, x.run = .ok value ∧ (next value).run = .ok result := by
  rw [ExceptT.run_bind] at success
  rcases outcome : x.run with e | value
  · rw [outcome] at success
    cases success
  · rw [outcome] at success
    exact ⟨value, rfl, success⟩

theorem checkDocument_eq (document : Document) :
    ((plain lookup).checkDocument s document).run = .ok ((s.options? document.id.project).bind fun options =>
      (checkFile document.path document.text options).uses) := by
  simp only [checkDocument, plain]
  cases s.options? document.id.project <;> rfl

theorem checkDocument_plain {document : Document} {uses : List Use}
    (checked : ((plain lookup).checkDocument s document).run = .ok (some uses)) :
    ∃ options, s.options? document.id.project = some options ∧ options.contains document.path = true ∧
      uses = (Environment.ofOptions options).uses
        (Analysis.ofText document.path document.text options.defines) := by
  rw [checkDocument_eq] at checked
  obtain ⟨options, found, shown⟩ := Option.bind_eq_some_iff.mp (Except.ok.inj checked)
  simp only [checkFile] at shown
  split at shown
  next listed => exact ⟨options, found, listed, (Option.some.inj shown).symm⟩
  next => cases shown

theorem exists_checkDocument (valid : WellFormed s) {p : Project} (member : p ∈ s.projects) {document : Document}
    (listed : document ∈ p.documents) (lookup : Syntax.Lookup) :
    ∃ options, s.options? p.id = some options ∧ ((plain lookup).checkDocument s document).run =
      .ok (some ((Environment.ofOptions options).uses (p.analysis document))) := by
  obtain ⟨options, present⟩ := Solution.exists_options (valid.project?_of_mem member)
  have defines := (Solution.options_of_mem valid member present).1
  refine ⟨options, present, ?_⟩
  rw [checkDocument_eq, valid.owned p member document listed, present, Option.bind_some, checkFile,
    if_pos (Solution.contains_of_mem valid member listed present), defines]
  rfl

theorem resolveAt_plain {document : Document} {offset : Nat} {resolved : ResolvedUse}
    (found : ((plain lookup).resolveAt s document offset).run = .ok (some resolved)) :
    ((plain lookup).checkDocument s document).run = .ok (some resolved.fileUses) ∧
      resolved.use ∈ resolved.fileUses := by
  unfold resolveAt at found
  obtain ⟨candidate, -, found⟩ := run_bind_eq_ok found
  cases candidate with
  | none => cases found
  | some candidate =>
    obtain ⟨uses, checked, found⟩ := run_bind_eq_ok found
    cases uses with
    | none => cases found
    | some uses =>
      obtain ⟨use, hit, rfl⟩ := Option.map_eq_some_iff.mp (Except.ok.inj found)
      obtain ⟨name, -, hit⟩ := Option.bind_eq_some_iff.mp hit
      exact ⟨checked, List.mem_of_find?_eq_some hit⟩

/-- What a plan is made of: the text under the span, and the use that a cursor at the start of the narrowed span
stands for. -/
theorem resolved_of_plan {document : Document} {span : Span} {strategy : Rename.Strategy} {change : String → String}
    {plan : Plan} (made : ((plain lookup).plan s document span strategy change).run = .ok (some plan)) :
    ∃ resolved visibility,
      ((plain lookup).resolveAt s document (Syntax.narrow document.text span).start).run = .ok (some resolved) ∧
      span.isEmpty = false ∧ span.slice? document.text = some plan.covered ∧
      resolved.use.symbol.visibility? document s = some visibility ∧
      plan = ⟨document.id, document.version, document.text, span, plan.covered, change plan.covered,
        resolved.use.symbol, visibility, resolved.fileUses, strategy⟩ := by
  unfold Service.plan at made
  by_cases empty : span.isEmpty = true
  · rw [if_pos empty] at made
    cases made
  · rw [if_neg empty] at made
    simp only at made
    split at made
    · cases made
    · rename_i covered cut
      split at made
      · cases made
      · obtain ⟨resolved, found, made⟩ := run_bind_eq_ok made
        cases resolved with
        | none => cases made
        | some resolved =>
          obtain ⟨visibility, seen, rfl⟩ := Option.map_eq_some_iff.mp (Except.ok.inj made)
          exact ⟨resolved, visibility, found, by simpa using empty, cut, seen, rfl⟩

theorem plan_eq_ok {document : Document} {span : Span} {strategy : Rename.Strategy} {change : String → String}
    {plan : Plan} (made : ((plain lookup).plan s document span strategy change).run = .ok (some plan)) :
    ∃ options, plan.MadeAt s document options := by
  obtain ⟨resolved, visibility, found, -, -, seen, whole⟩ := resolved_of_plan made
  obtain ⟨checked, member⟩ := resolveAt_plain found
  obtain ⟨options, present, -, uses⟩ := checkDocument_plain checked
  rw [whole]
  exact ⟨options, present, uses, ⟨_, member, rfl⟩, rfl, rfl, rfl, seen⟩

theorem run_bind_of_ok {α β : Type} {x : ExceptT Error Id α} {value : α} (done : x.run = .ok value)
    (next : α → ExceptT Error Id β) : (x >>= next).run = (next value).run := by
  rw [ExceptT.run_bind, done]
  rfl

theorem resolveAt_eq {document : Document} {offset : Nat} (boundary : Text.isBoundary document.text offset = true) :
    ((plain lookup).resolveAt s document offset).run = .ok
      ((s.options? document.id.project).bind fun options =>
        (Syntax.candidateAt document.text offset options.defines lookup).bind fun candidate =>
          (checkFile document.path document.text options).uses.bind fun uses =>
            (useAt? uses candidate.line candidate.endColumn candidate.lineText candidate.island).map fun use =>
              ⟨candidate, use, uses, document.id.project⟩) := by
  have place : (plain lookup).candidateAt s document offset = .ok ((s.options? document.id.project).bind fun options =>
      Syntax.candidateAt document.text offset options.defines lookup) := if_pos boundary
  rw [resolveAt, place]
  refine (run_bind_of_ok rfl _).trans ?_
  cases present : s.options? document.id.project with
  | none => rfl
  | some options =>
    cases pointed : Syntax.candidateAt document.text offset options.defines lookup with
    | none => simp [pointed]; rfl
    | some candidate =>
      simp only [Option.bind_some, pointed]
      refine (run_bind_of_ok (checkDocument_eq document) _).trans ?_
      rw [present, Option.bind_some]
      cases (checkFile document.path document.text options).uses <;> rfl

theorem resolveAt_of_use {document : Document} {offset : Nat} {options : Options} {candidate : Syntax.Candidate}
    {use : Use} (present : s.options? document.id.project = some options)
    (listed : options.contains document.path = true) (boundary : Text.isBoundary document.text offset = true)
    (pointed : Syntax.candidateAt document.text offset options.defines lookup = some candidate)
    (hit : useAt? ((Environment.ofOptions options).uses (Analysis.ofText document.path document.text options.defines))
      candidate.line candidate.endColumn candidate.lineText candidate.island = some use) :
    ∃ resolved, ((plain lookup).resolveAt s document offset).run = .ok (some resolved) ∧ resolved.use = use := by
  rw [resolveAt_eq boundary, present, Option.bind_some, pointed, Option.bind_some, checkFile, if_pos listed,
    Option.bind_some, hit]
  exact ⟨_, rfl, rfl⟩

theorem plan_of_resolved {document : Document} {span : Span} {covered : String} {resolved : ResolvedUse}
    {visibility : Visibility} (filled : span.isEmpty = false) (cut : span.slice? document.text = some covered)
    (shown : (Text.trim covered.toList).isEmpty = false)
    (found : ((plain lookup).resolveAt s document (Syntax.narrow document.text span).start).run = .ok (some resolved))
    (seen : resolved.use.symbol.visibility? document s = some visibility) (strategy : Rename.Strategy)
    (change : String → String) :
    ((plain lookup).plan s document span strategy change).run =
      .ok (some ⟨document.id, document.version, document.text, span, covered, change covered, resolved.use.symbol,
        visibility, resolved.fileUses, strategy⟩) := by
  simp only [Service.plan, filled, cut, shown]
  refine (run_bind_of_ok found _).trans ?_
  simp only [seen]
  rfl

theorem usesAcross_projects (symbol : Symbol) (ids : List ProjectId) (isInternal : Bool) (inFile : Symbol → List Use) :
    ((plain lookup).usesAcross symbol (.projects ids isInternal) inFile s false).run =
      .ok (groupByDocument (distinctPlaces
        (((Visibility.projects ids isInternal).searchedProjects s).flatMap (s.reported symbol))) s) := by
  have found : ((plain lookup).usesInProjects symbol
      ((Visibility.projects ids isInternal).searchedProjects s) s false).run =
      .ok (((Visibility.projects ids isInternal).searchedProjects s).flatMap (s.reported symbol)) := by
    rw [← gather_eq_ok, ← searchEach_plain]
    rfl
  simp only [usesAcross]
  rw [if_neg (by simp), ExceptT.run_bind, found]
  rfl

theorem locations_plain {plan : Plan} {d : Document} (origin : s.document? plan.document = some d)
    (version : d.version = plan.version) (text : d.text = plan.text) :
    ((plain lookup).locations plan s false).run = .ok (groupByDocument (distinctPlaces (plan.located s)) s) := by
  cases seen : plan.visibility with
  | currentDocument =>
    rw [locations_of_currentDocument _ seen]
    have same : (plain lookup).originUses plan s = pure (some plan.fileUses) := by
      rw [originUses, origin]
      exact if_pos ⟨version, text⟩
    rw [same, Plan.located, seen]
    rfl
  | projects ids isInternal =>
    rw [locations_of_projects _ seen, Plan.located, seen]
    exact usesAcross_projects ..

end Service

def Document.rangesOf (d : Document) (uses : List Use) : List Range :=
  ((distinctPlaces uses).filter fun u => d.path.Same u.place.file).map (·.place.range)

theorem Document.mem_rangesOf {d : Document} {uses : List Use} {r : Range} :
    r ∈ d.rangesOf uses ↔ ∃ u ∈ uses, d.path.Same u.place.file ∧ u.place.range = r := by
  constructor
  · intro listed
    obtain ⟨u, kept, range⟩ := List.mem_map.mp listed
    obtain ⟨first, here⟩ := List.mem_filter.mp kept
    exact ⟨u, (distinctBy_sublist _ _).subset first, by simpa using here, range⟩
  · rintro ⟨u, inside, here, rfl⟩
    have key := (mem_map_distinctBy (fun u : Use => u.place.key) uses u.place.key).mpr (List.mem_map_of_mem inside)
    obtain ⟨v, kept, equal⟩ := List.mem_map.mp key
    have file : v.place.file.Same u.place.file := congrArg Prod.fst equal
    have range : v.place.range = u.place.range := congrArg Prod.snd equal
    exact List.mem_map.mpr ⟨v, List.mem_filter.mpr ⟨kept, by simpa using here.trans file.symm⟩, range⟩

theorem nodup_ranges (d : Document) (uses : List Use) :
    (((distinctPlaces uses).filter fun u => d.path.Same u.place.file).map (·.place.range)).Nodup := by
  refine List.pairwise_map.mpr (((pairwise_distinctBy _ uses).filter _).imp_of_mem ?_)
  intro u v first second different same
  have left : d.path.Same u.place.file := by simpa using (List.mem_filter.mp first).2
  have right : d.path.Same v.place.file := by simpa using (List.mem_filter.mp second).2
  exact different (Prod.ext (left.symm.trans right) same)

theorem Plan.replaced_changed {s : Solution} (valid : WellFormed s) (distinct : s.Distinct) (plan : Plan)
    (uses : List Use) {d : Document} (member : d ∈ s.documents) :
    Rename.Replaced plan.new (Rename.accepted d.text plan.symbol.name (d.rangesOf uses)) d.text
      (Plan.changed { plan with strategy := .batched } (groupByDocument (distinctPlaces uses) s) d).text := by
  by_cases none : (distinctPlaces uses).filter (fun u => d.path.Same u.place.file) = []
  · have other : ∀ group ∈ groupByDocument (distinctPlaces uses) s, ¬group.document.Same d.id := by
      intro group inside same
      obtain ⟨e, listed, rfl, filled⟩ := (mem_groupByDocument valid distinct).mp inside
      obtain rfl := distinct.eq_of_same listed member same
      exact filled none
    have nothing : Rename.accepted d.text plan.symbol.name (d.rangesOf uses) = [] := by
      simp [Document.rangesOf, none, Rename.accepted, Rename.withoutOverlaps]
    rw [Plan.changed_of_not_same _ other, nothing]
    exact Rename.ReplacedFrom.nothing ..
  · have heads := (mem_groupByDocument valid distinct).mpr ⟨d, member, rfl, none⟩
    rw [Plan.changed_of_same _ (pairwise_groupByDocument _ s) heads rfl, Plan.edited_text]
    exact Rename.replaced_batched ..

/-- A document after a plan has been carried out all at once where it was made. -/
def Plan.edit (plan : Plan) (s : Solution) : Document → Document :=
  Plan.changed { plan with strategy := .batched } (groupByDocument (distinctPlaces (plan.located s)) s)

structure Solution.Reports (s : Solution) (p : Project) (d : Document) (u : Use) : Prop where
  project : p ∈ s.projects
  document : d ∈ p.documents
  found : ∃ options, s.options? p.id = some options ∧
    ∃ m b, (m, some b) ∈ (Environment.ofOptions options).resolutions (p.analysis d) ∧
      u.symbol = b.symbol ∧ u.place = ⟨d.path, m.token.range⟩

theorem mem_reported {s : Solution} {symbol : Symbol} {project : ProjectId} {u : Use}
    (member : u ∈ s.reported symbol project) :
    u.symbol.id = symbol.id ∧ ∃ p d, p.id = project ∧ s.Reports p d u := by
  unfold Solution.reported at member
  cases checked : s.options? project with
  | none =>
    rw [checked] at member
    cases member
  | some options =>
    rw [checked] at member
    obtain ⟨inside, same⟩ := List.mem_filter.mp member
    obtain ⟨p, present, -, -, own, -⟩ := Solution.options?_eq_some checked
    obtain ⟨listed, rfl⟩ := Solution.mem_of_project? present
    obtain ⟨file, known, inside⟩ := List.mem_flatMap.mp inside
    have known : file ∈ p.analyses := own ▸ known
    obtain ⟨d, document, rfl⟩ := List.mem_map.mp known
    obtain ⟨m, b, resolved, symbol, place⟩ := Environment.mem_uses inside
    exact ⟨by simpa using same, p, d, rfl, listed, document, options, checked, m, b, resolved, symbol, place⟩

theorem Solution.Reports.token {s : Solution} {p : Project} {d : Document} {u : Use} (reported : s.Reports p d u) :
    ∃ t ∈ (Syntax.lex d.text p.configuration.defines).tokens,
      t.isIdentifier = true ∧ u.place = ⟨d.path, t.range⟩ ∧ t.name = u.symbol.name := by
  obtain ⟨-, -, options, -, m, b, resolved, symbol, place⟩ := reported
  obtain ⟨marked, named⟩ := Environment.name_of_resolution resolved
  obtain ⟨inside, identifier⟩ := identifier_of_mark marked
  exact ⟨m.token, inside, identifier, place, by rw [symbol, named]⟩

theorem Solution.Reports.binding {s : Solution} (valid : WellFormed s) {p : Project} {d : Document} {u : Use}
    (reported : s.Reports p d u) :
    ∃ q ∈ s.projects, ∃ e ∈ q.documents, ∃ b ∈ (q.analysis e).bindings, u.symbol = b.symbol := by
  obtain ⟨member, document, options, checked, m, b, resolved, symbol, -⟩ := reported
  obtain ⟨q, listed, e, inside, bound⟩ := exists_binding valid member document checked resolved
  exact ⟨q, listed, e, inside, b, bound, symbol⟩

namespace Service

variable {lookup : Syntax.Lookup} {s : Solution} {document : Document} {span : Span} {strategy : Rename.Strategy}
  {change : String → String} {plan : Plan}

theorem mem_fileUses (valid : WellFormed s) (member : document ∈ s.documents)
    (made : ((plain lookup).plan s document span strategy change).run = .ok (some plan)) {u : Use}
    (inside : u ∈ plan.fileUses) : ∃ p, s.Reports p document u := by
  obtain ⟨options, planned⟩ := plan_eq_ok made
  obtain ⟨p, listed, owned⟩ := List.mem_flatMap.mp member
  have checked := planned.present
  rw [valid.owned p listed document owned] at checked
  rw [planned.uses, (Solution.options_of_mem valid listed checked).1] at inside
  obtain ⟨m, b, resolved, symbol, place⟩ := Environment.mem_uses inside
  exact ⟨p, listed, owned, options, checked, m, b, resolved, symbol, place⟩

theorem symbol_of_plan (valid : WellFormed s) (member : document ∈ s.documents)
    (made : ((plain lookup).plan s document span strategy change).run = .ok (some plan)) :
    ∃ p u, s.Reports p document u ∧ u.symbol = plan.symbol := by
  obtain ⟨_, planned⟩ := plan_eq_ok made
  obtain ⟨u, inside, same⟩ := planned.reported
  obtain ⟨p, reported⟩ := mem_fileUses valid member made inside
  exact ⟨p, u, reported, same⟩

theorem mem_located (valid : WellFormed s) (member : document ∈ s.documents)
    (made : ((plain lookup).plan s document span strategy change).run = .ok (some plan)) {u : Use}
    (located : u ∈ plan.located s) : u.symbol.id = plan.symbol.id ∧ ∃ p d, s.Reports p d u := by
  unfold Plan.located at located
  split at located
  · obtain ⟨inside, same⟩ := List.mem_filter.mp located
    obtain ⟨p, reported⟩ := mem_fileUses valid member made inside
    exact ⟨by simpa using same, p, document, reported⟩
  · obtain ⟨project, -, inside⟩ := List.mem_flatMap.mp located
    obtain ⟨same, p, d, -, reported⟩ := mem_reported inside
    exact ⟨same, p, d, reported⟩

theorem locations_of_plan (valid : WellFormed s) (distinct : s.Distinct) (member : document ∈ s.documents)
    (made : ((plain lookup).plan s document span strategy change).run = .ok (some plan)) :
    ((plain lookup).locations plan s false).run = .ok (groupByDocument (distinctPlaces (plan.located s)) s) := by
  obtain ⟨_, planned⟩ := plan_eq_ok made
  refine locations_plain ?_ planned.version.symm planned.text.symm
  rw [planned.origin]
  exact valid.document?_of_mem distinct member rfl

theorem apply_plain {groups : List DocumentUses} (located : ((plain lookup).locations plan s false).run = .ok groups) :
    ((plain lookup).apply plan s false).run = plan.change s groups := by
  rw [apply, ExceptT.run_bind, located]
  change (liftM (plan.change s groups) : ExceptT Error Id Solution).run = plan.change s groups
  cases plan.change s groups <;> rfl

theorem exists_apply (valid : WellFormed s) (distinct : s.Distinct) (member : document ∈ s.documents)
    (made : ((plain lookup).plan s document span strategy change).run = .ok (some plan)) :
    ∃ t, ((plain lookup).apply { plan with strategy := .batched } s false).run = .ok t ∧ WellFormed t ∧
      t.outline = s.outline ∧ t.documents = s.documents.map (plan.edit s) := by
  have listed := locations_of_plan valid distinct member made
  -- How a plan is carried out plays no part in what it lists.
  have located : ((plain lookup).locations { plan with strategy := .batched } s false).run =
      .ok (groupByDocument (distinctPlaces (plan.located s)) s) := listed
  have apart := pairwise_groupByDocument (distinctPlaces (plan.located s)) s
  obtain ⟨t, success, documents⟩ := Plan.exists_change { plan with strategy := .batched } valid distinct apart
  obtain ⟨outline, index, -⟩ := Plan.change_eq_ok valid apart success
  exact ⟨t, (apply_plain located).trans success, valid.of_outline outline index, outline, documents⟩

end Service

namespace Sample

theorem exists_plan_from_library : ∃ plan,
    ((Service.plain .precise).plan solution library ⟨4, 1⟩ .batched fun _ => "c").run = .ok (some plan) ∧
      plan.new = "c" ∧ plan.symbol = declared.symbol := by
  have present : solution.options? library.id.project = some (lib.options []) := rfl
  have cut : Span.slice? ⟨4, 1⟩ library.text = some "a" := by decide
  have pointed : Syntax.candidateAt library.text (Syntax.narrow library.text ⟨4, 1⟩).start (lib.options []).defines
      .precise = some ⟨⟨4, 1⟩, false, 0, 4, 5, "let a = 1", ["a"]⟩ := by decide
  have uses : (Environment.ofOptions (lib.options [])).uses
      (Analysis.ofText library.path library.text (lib.options []).defines) =
        [⟨declared.symbol, ⟨library.path, token.range⟩, .definition⟩] := rfl
  have hit : useAt? [⟨declared.symbol, ⟨library.path, token.range⟩, .definition⟩] 0 5 "let a = 1" ["a"] =
      some ⟨declared.symbol, ⟨library.path, token.range⟩, .definition⟩ := by
    simp only [useAt?, List.getLast?_singleton, Option.bind_eq_bind, Option.bind_some]
    exact List.find?_cons_of_pos (by decide)
  obtain ⟨resolved, found, use⟩ := Service.resolveAt_of_use present (by decide) (by decide) pointed (uses ▸ hit)
  have symbol : resolved.use.symbol = declared.symbol := by rw [use]
  have seen : resolved.use.symbol.visibility? library solution = some (.projects ["Lib"] false) := by
    rw [symbol]
    rfl
  exact ⟨_, Service.plan_of_resolved (by decide) cut (by decide) found seen .batched fun _ => "c", rfl, symbol⟩

theorem exists_plan : ∃ plan,
    ((Service.plain .precise).plan solution library ⟨4, 1⟩ .batched fun _ => "c").run = .ok (some plan) ∧
      plan.new = "c" ∧ plan.symbol.name = "a" := by
  obtain ⟨plan, made, new, symbol⟩ := exists_plan_from_library
  exact ⟨plan, made, new, by rw [symbol]; rfl⟩

end Sample

end CrossRef
