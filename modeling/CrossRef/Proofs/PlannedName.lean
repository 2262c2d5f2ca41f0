import CrossRef.Proofs.CursorTarget
import CrossRef.Proofs.ExchangedNames

/-! What a plan renames. The symbol is found from the start of the narrowed span, but the text that is changed is all
that the span covers, so the two agree where the span covers an identifier, with its fences or without. Every occurrence
gets the changed text as the span has it. A plan that keeps this text leaves what is written alike, and where the other
occurrences can be written so too, it leaves all names. -/

namespace CrossRef
open Check Syntax

namespace Syntax

private theorem unquote_take {cs : List Char} {k : Nat} (found : charsToFence? cs = some k) :
    unquote (String.ofList (cs.take k)) = String.ofList (cs.take k) := by
  have plain : fenced? (cs.take k) = none := by
    unfold fenced?
    split
    · rename_i rest opened
      have whole := List.take_append_drop k cs
      rw [opened] at whole
      rw [← whole, List.cons_append, List.cons_append, charsToFence?] at found
      cases found
      cases opened
    · rfl
  rw [unquote, String.toList_ofList, plain]

private theorem unquote_fenced {inner : List Char} (filled : inner ≠ []) :
    unquote (String.ofList (fence ++ (inner ++ fence))) = String.ofList inner := by
  have ends : fence.isSuffixOf (inner ++ fence) = true := by
    rw [List.isSuffixOf_iff_suffix]
    exact List.suffix_append ..
  have found : fenced? (fence ++ (inner ++ fence)) = some inner := by
    rw [fence, List.cons_append, List.cons_append, List.nil_append, fenced?, ← fence, if_pos ends]
    simp [fence]
  rw [unquote, String.toList_ofList, found]
  simp [filled]

def Token.inner (t : Token) : Span :=
  ⟨t.span.start + 2, t.span.length - 4⟩

private theorem name_of_inner {text shown : String} {t : Token} (member : t ∈ allTokens text)
    (quoted : t.kind = .quoted) (cut : t.inner.slice? text = some shown)
    (filled : t.inner.isEmpty = false) : unquote shown = t.name := by
  obtain ⟨front, c, more, back, rest, whole, written, span, found, -⟩ := place_of_mem_allTokens member
  rw [quoted] at found
  obtain ⟨rfl, cs, k, fenced, taken⟩ := quoted_text found
  rw [take_of_charsToFence? fenced] at taken
  have spelled : '\x60' :: more = fence ++ (cs.take k ++ fence) := by rw [taken]; rfl
  have inside : t.inner = ⟨Text.size (front ++ fence), Text.size (cs.take k)⟩ := by
    have fences : Text.size fence = 2 := rfl
    rw [Token.inner, span, spelled]
    simp only [Text.size_append, fences, Span.mk.injEq, true_and]
    omega
  have around : text.toList = (front ++ fence) ++ (cs.take k ++ (fence ++ back)) := by
    rw [whole, ← List.cons_append, spelled]
    simp
  obtain rfl : shown = String.ofList (cs.take k) := Option.some.inj (cut.symm.trans (inside ▸ slice?_append around))
  rw [Token.name, written, spelled, unquote_take fenced, unquote_fenced]
  intro empty
  rw [inside, empty] at filled
  cases filled

private theorem start_narrow {text shown : String} {span : Span} (cut : span.slice? text = some shown) :
    span.start ≤ (narrow text span).start ∧ (narrow text span).start ≤ span.stop := by
  have short := pastLastDot?_le false shown.toList
  obtain ⟨_, _, -, -, length⟩ := Span.slice?_eq_some_iff.mp cut
  rw [Text.size_toList, length] at short
  rw [Rename.narrow_of_slice? cut, Span.stop]
  simp only [Span.ofBounds]
  omega

/-- A span that covers an identifier, with its fences or without, is narrowed to something that begins inside it. -/
theorem contains_start_narrow {text shown : String} {t : Token} {span : Span} (member : t ∈ allTokens text)
    (named : t.isIdentifier = true) (cut : span.slice? text = some shown) (filled : span.isEmpty = false)
    (covers : span = t.span ∨ t.kind = .quoted ∧ span = t.inner) : t.span.contains (narrow text span).start = true := by
  simp only [Span.contains, Bool.and_eq_true, decide_eq_true_eq]
  rcases covers with rfl | ⟨-, rfl⟩
  · have solid := filled_of_mem_allTokens member
    rw [Rename.narrow_of_mem_allTokens member named]
    simp only [Span.stop]
    omega
  · obtain ⟨first, last⟩ := start_narrow cut
    simp only [Token.inner, Span.isEmpty, Span.stop, beq_eq_false_iff_ne] at first last filled ⊢
    omega

end Syntax

namespace Service

variable {lookup : Lookup} {s : Solution}

/-- The occurrences of a plan are always found, each document at most once. -/
theorem exists_locations (plan : Plan) : ∃ groups, ((plain lookup).locations plan s false).run = .ok groups ∧
    groups.Pairwise fun a b => ¬b.document.Same a.document := by
  cases seen : plan.visibility with
  | projects ids isInternal =>
    rw [locations_of_projects _ seen, seen]
    exact ⟨_, usesAcross_projects .., pairwise_groupByDocument ..⟩
  | currentDocument =>
    rw [locations_of_currentDocument _ seen]
    obtain ⟨uses, known⟩ : ∃ uses, ((plain lookup).originUses plan s).run = .ok uses := by
      unfold originUses
      split
      · exact ⟨none, rfl⟩
      · split
        · exact ⟨_, rfl⟩
        · exact ⟨_, checkDocument_eq _⟩
    cases uses with
    | none => exact ⟨[], run_bind_of_ok known _, List.Pairwise.nil⟩
    | some uses => exact ⟨_, run_bind_of_ok known _, pairwise_groupByDocument ..⟩

private theorem boundary_of_resolveAt {document : Document} {offset : Nat} {outcome : Option ResolvedUse}
    (found : ((plain lookup).resolveAt s document offset).run = .ok outcome) :
    Text.isBoundary document.text offset = true := by
  by_contra between
  have fails : (plain lookup).candidateAt s document offset =
      .error (.solution (.invalidPosition offset document.text.utf8ByteSize)) := if_neg between
  rw [resolveAt, fails] at found
  cases found

end Service

/-- A plan changes the text under its span and renames what the identifier there stands for. -/
theorem plan_names_span {lookup : Lookup} {s : Solution} (run : Reachable s) {document : Document} {span : Span}
    {strategy : Rename.Strategy} {change : String → String} {plan : Plan}
    (made : ((Service.plain lookup).plan s document span strategy change).run = .ok (some plan)) :
    span.slice? document.text = some plan.covered ∧ plan.new = change plan.covered ∧
      (∃ t m b, s.Selects document lookup (narrow document.text span).start t ∧ t.isIdentifier = true ∧ m.token = t ∧
        (m, some b) ∈ s.recorded document ∧ plan.symbol = b.symbol ∧ plan.symbol.name = t.name) ∧
      (∀ t ∈ s.tokens document, t.isIdentifier = true → span = t.span ∨ t.kind = .quoted ∧ span = t.inner →
        unquote plan.covered = plan.symbol.name) ∧
      (change plan.covered = plan.covered →
        ∃ groups t, ((Service.plain lookup).locations plan s false).run = .ok groups ∧
          ((Service.plain lookup).apply plan s false).run = .ok t ∧
          (plan.Finds s groups (fun text found => found.slice? text = some plan.covered) → t = s) ∧
          (plan.strategy = .batched → unquote plan.covered = plan.symbol.name →
            plan.Finds s groups (fun text found => Exchangeable text plan.covered found) → t.names = s.names)) := by
  obtain ⟨resolved, visibility, found, filled, cut, -, whole⟩ := Service.resolved_of_plan made
  have new : plan.new = change plan.covered := by rw [whole]
  have symbol : plan.symbol = resolved.use.symbol := by rw [whole]
  have boundary := Service.boundary_of_resolveAt found
  obtain ⟨t, m, b, selected, identifier, token, recorded, stands, -⟩ := Solution.resolveAt_eq_some boundary found
  have name : plan.symbol.name = t.name := by
    rw [symbol, stands, Solution.name_of_recorded recorded, token]
  refine ⟨cut, new, ⟨t, m, b, selected, identifier, token, recorded, symbol.trans stands, name⟩, ?_, ?_⟩
  · -- The narrowed span begins inside the covered identifier, so this is the one that is selected.
    intro u member word covers
    have known := Solution.mem_allTokens member
    have inside : u.span.contains (narrow document.text span).start = true :=
      contains_start_narrow known word cut filled covers
    rw [name, Solution.selects_inside boundary member (isName_of_isIdentifier word) inside selected]
    rcases covers with rfl | ⟨quoted, rfl⟩
    · rw [Rename.slice?_of_mem_allTokens known] at cut
      rw [← Option.some.inj cut, Token.name]
    · exact name_of_inner known quoted cut filled
  · intro kept
    obtain ⟨groups, located, distinct⟩ := Service.exists_locations plan
    obtain ⟨t, changed⟩ := Plan.change_succeeds run.wellFormed groups
    refine ⟨groups, t, located, (Service.apply_plain located).trans changed, ?_, ?_⟩
    · intro alike
      exact Except.ok.inj (changed.symm.trans (Plan.change_self (new.trans kept) alike))
    · intro batched named exchangeable
      have covered : plan.new = plan.covered := new.trans kept
      rw [← covered] at named exchangeable
      exact Plan.names_change run.wellFormed batched named distinct exchangeable changed

namespace Sample

/-! A name in its two spellings, a longer one that it is a part of, and one that stands right before another. -/

def spelled : Document := .ofText ⟨"Core", .ofText "core.ml"⟩ "let ``ab`` = ab xaby ab``ab``"

def spelling : Project := .ofDocuments "Core" ⟨[], []⟩ [spelled]

def spellings : Solution := ⟨[spelling], .ofProjects [spelling], 0⟩

theorem spellings_reachable : Reachable spellings := by
  have success : Solution.build [spelling] = .ok spellings := by decide
  exact .built (by decide) success

def quotedToken : Token := ⟨.quoted, ⟨4, 6⟩, 0, 4, "``ab``"⟩

def quotedBinding : Binding :=
  ⟨symbolOf spelled.path "" (Tally.empty.count ("", "ab")) quotedToken .value .everywhere false, quotedToken, none⟩

private def spelledUses : List Use :=
  [⟨quotedBinding.symbol, ⟨spelled.path, .onLine 0 4 10⟩, .definition⟩,
    ⟨quotedBinding.symbol, ⟨spelled.path, .onLine 0 13 15⟩, .use⟩,
    ⟨quotedBinding.symbol, ⟨spelled.path, .onLine 0 21 23⟩, .use⟩,
    ⟨quotedBinding.symbol, ⟨spelled.path, .onLine 0 23 29⟩, .use⟩]

def spelledReference (kind : TokenKind) (span : Span) (column : Nat) (text : String) : Reference :=
  ⟨⟨kind, span, 0, column, text⟩, .use⟩

theorem spelled_resolutions :
    (Environment.ofOptions (spelling.options [])).resolutions (spelling.analysis spelled) =
      [(.binding quotedBinding, some quotedBinding),
        (.reference (spelledReference .word ⟨13, 2⟩ 13 "ab"), some quotedBinding),
        (.reference (spelledReference .word ⟨16, 4⟩ 16 "xaby"), none),
        (.reference (spelledReference .word ⟨21, 2⟩ 21 "ab"), some quotedBinding),
        (.reference (spelledReference .quoted ⟨23, 6⟩ 23 "``ab``"), some quotedBinding)] := by
  have marks : (spelling.analysis spelled).marks =
      [.binding quotedBinding, .reference (spelledReference .word ⟨13, 2⟩ 13 "ab"),
        .reference (spelledReference .word ⟨16, 4⟩ 16 "xaby"), .reference (spelledReference .word ⟨21, 2⟩ 21 "ab"),
        .reference (spelledReference .quoted ⟨23, 6⟩ 23 "``ab``")] := rfl
  have resolved : ∀ r, (Environment.ofOptions (spelling.options [])).resolve? (spelling.analysis spelled).path
      (OwnBindings.empty.add quotedBinding) r =
        (Environment.candidates (spelling.options []) spelled.path [quotedBinding] r.offset).find?
          (·.symbol.name = r.name) :=
    fun r => Environment.resolve?_eq_find? _ _ [quotedBinding] r
  rw [Environment.resolutions, marks]
  simp only [Environment.resolutionsFrom, resolved]
  rfl

private theorem spelled_uses :
    (Environment.ofOptions (spelling.options [])).uses (spelling.analysis spelled) = spelledUses := by
  rw [Environment.uses_eq, spelled_resolutions]
  rfl

def spelledPlan (span : Span) (covered : String) (strategy : Rename.Strategy) (fileUses : List Use) : Plan :=
  ⟨spelled.id, 0, spelled.text, span, covered, covered, quotedBinding.symbol, .projects ["Core"] false, fileUses,
    strategy⟩

theorem spelled_plan {span : Span} {covered : String} (filled : span.isEmpty = false)
    (cut : span.slice? spelled.text = some covered) (shown : (Text.trim covered.toList).isEmpty = false)
    (boundary : Text.isBoundary spelled.text (narrow spelled.text span).start = true)
    (pointed : candidateAt spelled.text (narrow spelled.text span).start [] .precise =
      some ⟨⟨4, 6⟩, false, 0, 4, 10, spelled.text, ["ab"]⟩) (strategy : Rename.Strategy) :
    ∃ fileUses, ((Service.plain .precise).plan spellings spelled span strategy id).run =
      .ok (some (spelledPlan span covered strategy fileUses)) := by
  have present : spellings.options? spelled.id.project = some (spelling.options []) := rfl
  have hit : useAt? ((Environment.ofOptions (spelling.options [])).uses (spelling.analysis spelled)) 0 10 spelled.text
      ["ab"] = some ⟨quotedBinding.symbol, ⟨spelled.path, .onLine 0 4 10⟩, .definition⟩ := by
    rw [spelled_uses]
    simp only [useAt?, List.getLast?_singleton, Option.bind_eq_bind, Option.bind_some]
    exact List.find?_cons_of_pos (by decide)
  obtain ⟨resolved, found, use⟩ := Service.resolveAt_of_use present (by decide) boundary pointed hit
  have symbol : resolved.use.symbol = quotedBinding.symbol := by rw [use]
  have seen : quotedBinding.symbol.visibility? spelled spellings = some (.projects ["Core"] false) := rfl
  have made := Service.plan_of_resolved filled cut shown found (symbol ▸ seen) strategy id
  rw [symbol] at made
  exact ⟨resolved.fileUses, made⟩

private theorem spelled_located (span : Span) (covered : String) (strategy : Rename.Strategy) (fileUses : List Use) :
    ((Service.plain .precise).locations (spelledPlan span covered strategy fileUses) spellings false).run =
      .ok [⟨spelled.id, spelledUses⟩] := by
  have dependents : spellings.dependents "Core" = [] := by decide
  have reported : spellings.reported quotedBinding.symbol "Core" = spelledUses := by
    have checked : checkProject (spelling.options []) =
        (Environment.ofOptions (spelling.options [])).uses (spelling.analysis spelled) ++ [] := rfl
    have present : spellings.options? "Core" = some (spelling.options []) := rfl
    rw [Solution.reported, present, Option.elim_some, checked, spelled_uses]
    simp [usesOf, spelledUses]
  have located : (spelledPlan span covered strategy fileUses).located spellings = spelledUses := by
    simp [Plan.located, spelledPlan, Visibility.searchedProjects, dependents, reported]
  have documents : spellings.documentsOf spelled.path = [spelled.id] := rfl
  have origin : spellings.document? (spelledPlan span covered strategy fileUses).document = some spelled := rfl
  rw [Service.locations_plain origin rfl rfl, located]
  simp [groupByDocument, distinctPlaces, spelledUses, Place.key, Range.onLine, documents, Buckets.get_ofList]

private theorem spelled_targets :
    (spelledUses.map (·.place.range)).filterMap (Rename.target? (.ofText spelled.text) spelled.text "ab") =
      [⟨4, 6⟩, ⟨13, 2⟩, ⟨21, 2⟩, ⟨23, 6⟩] := by
  decide +kernel

private theorem spelled_batched :
    Rename.batched spelled.text "ab" "ab" (spelledUses.map (·.place.range)) = "let ab = ab xaby abab" := by
  have sorted : [(⟨4, 6⟩ : Span), ⟨13, 2⟩, ⟨21, 2⟩, ⟨23, 6⟩].Pairwise fun a b => (compare a b).isLE = true := by decide
  have accepted : Rename.accepted spelled.text "ab" (spelledUses.map (·.place.range)) =
      [⟨4, 6⟩, ⟨13, 2⟩, ⟨21, 2⟩, ⟨23, 6⟩] := by
    rw [Rename.accepted, spelled_targets, List.mergeSort_of_pairwise sorted]
    decide
  have pieces : String.join (Rename.pieces spelled.text "ab" 0 [⟨4, 6⟩, ⟨13, 2⟩, ⟨21, 2⟩, ⟨23, 6⟩]) =
      "let ab = ab xaby abab" := by decide
  rw [Rename.batched, accepted, pieces]

/-- The third range is that of another name by the time it is its turn. -/
private theorem spelled_sequential :
    Rename.sequential spelled.text "ab" "``ab``" (spelledUses.map (·.place.range)) =
      "let ``ab`` = ``ab`` x``ab``y ab``ab``" := by
  have first : Rename.replaceOne "ab" "``ab``" spelled.text (.onLine 0 4 10) = spelled.text := by decide +kernel
  have second : Rename.replaceOne "ab" "``ab``" spelled.text (.onLine 0 13 15) =
      "let ``ab`` = ``ab`` xaby ab``ab``" := by decide +kernel
  have third : Rename.replaceOne "ab" "``ab``" "let ``ab`` = ``ab`` xaby ab``ab``" (.onLine 0 21 23) =
      "let ``ab`` = ``ab`` x``ab``y ab``ab``" := by decide +kernel
  have fourth : Rename.replaceOne "ab" "``ab``" "let ``ab`` = ``ab`` x``ab``y ab``ab``" (.onLine 0 23 29) =
      "let ``ab`` = ``ab`` x``ab``y ab``ab``" := by decide +kernel
  have ranges : spelledUses.map (·.place.range) = [.onLine 0 4 10, .onLine 0 13 15, .onLine 0 21 23, .onLine 0 23 29] :=
    rfl
  rw [Rename.sequential_eq, ranges]
  simp only [List.foldl_cons, List.foldl_nil, first, second, third, fourth]

private def respelledSpellings (text : String) : Solution :=
  ⟨[.ofDocuments "Core" ⟨[], []⟩ [spelled.withText text]], spellings.index, 1⟩

private theorem spelled_applied (span : Span) {covered text : String} {strategy : Rename.Strategy} (fileUses : List Use)
    (rewritten : Rename.replace strategy spelled.text "ab" covered (spelledUses.map (·.place.range)) = text)
    (differs : text ≠ spelled.text) :
    ((Service.plain .precise).apply (spelledPlan span covered strategy fileUses) spellings false).run =
      .ok (respelledSpellings text) := by
  have origin : spellings.document? spelled.id = some spelled := rfl
  have after : (spelledPlan span covered strategy fileUses).rewritten spelled.text ⟨spelled.id, spelledUses⟩ = text :=
    rewritten
  have step : (spelledPlan span covered strategy fileUses).changeDocument spellings ⟨spelled.id, spelledUses⟩ =
      .ok (respelledSpellings text) := by
    rw [Plan.changeDocument_eq]
    simp only [origin, after, if_neg differs]
    rfl
  rw [Service.apply_plain (spelled_located ..), Plan.change, List.foldlM_cons, step]
  rfl

private theorem names_ne {first second : Solution}
    (differ : (first.documents.map fun d => d.names []) ≠ second.documents.map fun d => d.names []) :
    first.names ≠ second.names := by
  intro same
  have shown := congrArg (List.map fun entry => entry.2 []) same
  simp only [Solution.names, List.map_map] at shown
  exact differ shown

/-- A part of a name is not the name. A name without its fences may run into the next one, and with more fences than
before it moves what is replaced later. -/
theorem span_not_named :
    (∃ plan, ((Service.plain .precise).plan spellings spelled ⟨6, 1⟩ .batched id).run = .ok (some plan) ∧
      unquote plan.covered ≠ plan.symbol.name) ∧
    (∃ plan t, ((Service.plain .precise).plan spellings spelled ⟨6, 2⟩ .batched id).run = .ok (some plan) ∧
      unquote plan.covered = plan.symbol.name ∧ ((Service.plain .precise).apply plan spellings false).run = .ok t ∧
      t.names ≠ spellings.names) ∧
    ∃ plan t, ((Service.plain .precise).plan spellings spelled ⟨4, 6⟩ .sequential id).run = .ok (some plan) ∧
      unquote plan.covered = plan.symbol.name ∧ ((Service.plain .precise).apply plan spellings false).run = .ok t ∧
      t.names ≠ spellings.names := by
  refine ⟨?_, ?_, ?_⟩
  · obtain ⟨fileUses, made⟩ := spelled_plan (by decide : Span.isEmpty ⟨6, 1⟩ = false)
      (by decide : Span.slice? ⟨6, 1⟩ spelled.text = some "a") (by decide) (by decide) (by decide +kernel) .batched
    refine ⟨_, made, ?_⟩
    change unquote "a" ≠ "ab"
    decide
  · obtain ⟨fileUses, made⟩ := spelled_plan (by decide : Span.isEmpty ⟨6, 2⟩ = false)
      (by decide : Span.slice? ⟨6, 2⟩ spelled.text = some "ab") (by decide) (by decide) (by decide +kernel) .batched
    refine ⟨_, _, made, ?_, spelled_applied _ fileUses spelled_batched (by decide), names_ne (by decide +kernel)⟩
    change unquote "ab" = "ab"
    decide
  · obtain ⟨fileUses, made⟩ := spelled_plan (by decide : Span.isEmpty ⟨4, 6⟩ = false)
      (by decide : Span.slice? ⟨4, 6⟩ spelled.text = some "``ab``") (by decide) (by decide) (by decide +kernel)
      .sequential
    refine ⟨_, _, made, ?_, spelled_applied _ fileUses spelled_sequential (by decide), names_ne (by decide +kernel)⟩
    change unquote "``ab``" = "ab"
    decide

private theorem spelled_exchangeable {u : Use} (member : u ∈ spelledUses) {found : Span}
    (target : Rename.target? (.ofText spelled.text) spelled.text "ab" u.place.range = some found) :
    Exchangeable spelled.text "``ab``" found := by
  have name : IsName .quoted "``ab``".toList := .quoted (by decide : charsToFence? "ab``".toList = some 2) rfl
  have quoted : Spelling .quoted "``ab``" := ⟨name, by decide, by decide⟩
  have word : ∀ t ∈ plainTokens spelled.text, t.Admits spelled.text .quoted "``ab``" →
      Exchangeable spelled.text "``ab``" t.span :=
    fun t inside admits => .inr ⟨t, inside, rfl, .quoted, quoted, admits⟩
  have listed : found ∈ [(⟨4, 6⟩ : Span), ⟨13, 2⟩, ⟨21, 2⟩, ⟨23, 6⟩] :=
    spelled_targets ▸ List.mem_filterMap.mpr ⟨_, List.mem_map_of_mem member, target⟩
  simp only [List.mem_cons, List.not_mem_nil, or_false] at listed
  rcases listed with rfl | rfl | rfl | rfl
  · exact .inl (by decide)
  · exact word ⟨.word, ⟨13, 2⟩, 0, 13, "ab"⟩ (by decide) ⟨by decide, ⟨by decide, by decide⟩, by decide⟩
  · exact word ⟨.word, ⟨21, 2⟩, 0, 21, "ab"⟩ (by decide) ⟨by decide, ⟨by decide, by decide⟩, by decide⟩
  · exact .inl (by decide)

theorem quoted_span_named :
    (∃ plan, ((Service.plain .precise).plan spellings spelled ⟨6, 2⟩ .batched id).run = .ok (some plan) ∧
      plan.covered = "ab" ∧ unquote plan.covered = plan.symbol.name) ∧
    ∃ plan t, ((Service.plain .precise).plan spellings spelled ⟨4, 6⟩ .batched id).run = .ok (some plan) ∧
      plan.covered = "``ab``" ∧ ((Service.plain .precise).apply plan spellings false).run = .ok t ∧
      t.names = spellings.names := by
  constructor
  · obtain ⟨fileUses, made⟩ := spelled_plan (by decide : Span.isEmpty ⟨6, 2⟩ = false)
      (by decide : Span.slice? ⟨6, 2⟩ spelled.text = some "ab") (by decide) (by decide) (by decide +kernel) .batched
    obtain ⟨-, -, -, named, -⟩ := plan_names_span spellings_reachable made
    exact ⟨_, made, rfl, named quotedToken (by decide) (by decide) (.inr (by decide))⟩
  · obtain ⟨fileUses, made⟩ := spelled_plan (by decide : Span.isEmpty ⟨4, 6⟩ = false)
      (by decide : Span.slice? ⟨4, 6⟩ spelled.text = some "``ab``") (by decide) (by decide) (by decide +kernel) .batched
    obtain ⟨-, -, -, named, kept⟩ := plan_names_span spellings_reachable made
    obtain ⟨groups, t, located, applied, -, names⟩ := kept rfl
    obtain rfl := Except.ok.inj (located.symm.trans (spelled_located ..))
    refine ⟨_, t, made, rfl, applied, names rfl (named quotedToken (by decide) (by decide) (.inl (by decide))) ?_⟩
    intro group listed d found u inside
    obtain rfl := List.mem_singleton.mp listed
    obtain rfl : spelled = d := Option.some.inj found
    exact fun _ => spelled_exchangeable inside

end Sample

end CrossRef
