import CrossRef.Proofs.AcceptedNames
import CrossRef.Proofs.PlannedName
import CrossRef.Proofs.SoleDocument

/-! Renaming keeps the tokens of a text exactly if no two of them come to run into each other. Line by line, what is
rewritten must stay apart from the tokens around it and make no directive. Where one line does not keep its tokens,
neither does the text. -/

namespace CrossRef
open Check Syntax

namespace Syntax

/-- A text beside one that has the same tokens, but a new text, of a kind, in the place of the chosen ones. -/
def TokensKept (chosen : Token → Bool) (kind : TokenKind) (new text result : String) (defines : List String) : Prop :=
  (lex result defines).tokens.map Token.shape = (lex text defines).tokens.map (respell chosen kind new)

/-- When a text keeps its tokens while the chosen ones get a new text: each of its lines does. -/
def KeepsAllTokens (chosen : Token → Bool) (kind : TokenKind) (new text : String) (defines : List String) : Prop :=
  ∀ line l, (Line.ofText text.toList)[line]? = some l →
    KeepsTokens chosen kind new l.content ((lex text defines).tokens.filter (·.line == line))

private theorem line_le_of_mem {defines : List String} {line : Nat} {regions : List Region} {ls : List Line} {t : Token}
    (member : t ∈ (lexLines defines line regions ls).tokens) : line ≤ t.line := by
  have known := (lexLines_sublist defines line regions ls).subset member
  clear member
  induction ls generalizing line with
  | nil => cases known
  | cons l ls ih =>
    rcases List.mem_append.mp known with here | later
    · obtain ⟨_, _, _, _, -, -, number, -⟩ := (lexes_lexLine ..).place_of_mem here
      exact Nat.le_of_eq number.symm
    · exact Nat.le_of_succ_le (ih later)

private theorem filter_lexLines (defines : List String) (line : Nat) (regions : List Region) (start : Nat)
    (before : List (List Char)) (piece : List Char) (after : List (List Char)) :
    let tokens := (lexLines defines line regions (Line.place start (before ++ piece :: after))).tokens.filter
      (·.line == line + before.length)
    tokens = [] ∨ Directive.ofLine? (Text.withoutReturn piece) = none ∧
      tokens = lexLine (line + before.length) (start + Text.size (before.flatMap (· ++ ['\n']))) 0 0
        (Text.withoutReturn piece) := by
  induction before generalizing line regions start with
  | nil =>
    have behind : ∀ regions ls, (lexLines defines (line + 1) regions ls).tokens.filter (·.line == line) = [] := by
      intro regions ls
      refine List.filter_eq_nil_iff.mpr fun t member => ?_
      have := line_le_of_mem member
      simp only [beq_iff_eq]
      omega
    have here : (lexLine line start 0 0 (Text.withoutReturn piece)).filter (·.line == line) =
        lexLine line start 0 0 (Text.withoutReturn piece) := by
      refine List.filter_eq_self.mpr fun t member => ?_
      obtain ⟨_, _, _, _, -, -, number, -⟩ := (lexes_lexLine ..).place_of_mem member
      simp [number]
    rw [List.nil_append, Line.place_cons]
    cases found : Directive.ofLine? (Text.withoutReturn piece) with
    | some d =>
      rw [tokens_of_directive defines line regions found]
      exact .inl (behind ..)
    | none =>
      rw [tokens_of_text defines line regions found]
      simp only [List.length_nil, Nat.add_zero, List.filter_append, behind, List.append_nil]
      split
      · exact .inr ⟨trivial, here⟩
      · exact .inl rfl
  | cons first before ih =>
    have above : (lexLine line start 0 0 (Text.withoutReturn first)).filter
        (·.line == line + 1 + before.length) = [] := by
      refine List.filter_eq_nil_iff.mpr fun t member => ?_
      obtain ⟨_, _, _, _, -, -, number, -⟩ := (lexes_lexLine ..).place_of_mem member
      simp only [beq_iff_eq, number]
      omega
    rw [List.cons_append, Line.place_cons, size_flatMap_cons, List.length_cons, Nat.add_comm before.length,
      ← Nat.add_assoc, ← Nat.add_assoc, ← Nat.add_assoc]
    cases found : Directive.ofLine? (Text.withoutReturn first) with
    | some d =>
      rw [tokens_of_directive defines line regions found]
      exact ih ..
    | none =>
      rw [tokens_of_text defines line regions found, List.filter_append]
      split
      · rw [above, List.nil_append]
        exact ih ..
      · exact ih ..

private theorem filter_lex {text : String} {before after : List (List Char)} {piece : List Char}
    (pieces : Text.split '\n' text.toList = before ++ piece :: after) (defines : List String) :
    (lex text defines).tokens.filter (·.line == before.length) = [] ∨
      Directive.ofLine? (Text.withoutReturn piece) = none ∧
        (lex text defines).tokens.filter (·.line == before.length) =
          lexLine before.length (Text.size (before.flatMap (· ++ ['\n']))) 0 0 (Text.withoutReturn piece) := by
  have lines := filter_lexLines defines 0 [] 0 before piece after
  rwa [Nat.zero_add, Nat.zero_add, ← pieces] at lines

variable {chosen : Token → Bool} {kind : TokenKind} {new : String}

private theorem RespelledNames.exists_line {line start : Nat} {before after changed : List (List Char)}
    {piece : List Char} (lines : RespelledNames chosen new line start (before ++ piece :: after) changed)
    (text : Directive.ofLine? (Text.withoutReturn piece) = none) :
    ∃ above other below, changed = above ++ other :: below ∧ above.length = before.length ∧
      RespellsNames chosen new (line + before.length) (start + Text.size (before.flatMap (· ++ ['\n']))) 0
        (Text.withoutReturn piece) (Text.withoutReturn other)
        (lexLine (line + before.length) (start + Text.size (before.flatMap (· ++ ['\n']))) 0 0
          (Text.withoutReturn piece)) := by
  induction before generalizing line start changed with
  | nil =>
    cases lines with
    | directive found =>
      rw [found] at text
      cases text
    | plain _ _ ends cut => exact ⟨[], _, _, rfl, rfl, ends.symm ▸ cut⟩
  | cons first before ih =>
    obtain ⟨other, later, rfl, rest⟩ : ∃ other later, changed = other :: later ∧
        RespelledNames chosen new (line + 1) (start + Text.size first + 1) (before ++ piece :: after) later := by
      cases lines with
      | directive _ rest => exact ⟨_, _, rfl, rest⟩
      | plain _ _ _ _ rest => exact ⟨_, _, rfl, rest⟩
    obtain ⟨above, line, below, rfl, length, cut⟩ := ih rest
    refine ⟨other :: above, line, below, rfl, by rw [List.length_cons, List.length_cons, length], ?_⟩
    rwa [size_flatMap_cons, List.length_cons, Nat.add_comm before.length, ← Nat.add_assoc, ← Nat.add_assoc,
      ← Nat.add_assoc]

private theorem line_respell (t : Token) : (respell chosen kind new t).2.1 = t.line := by
  unfold respell
  split <;> rfl

private theorem shapes_filter {before after : List Token}
    (same : after.map Token.shape = before.map (respell chosen kind new)) (line : Nat) :
    (after.filter (·.line == line)).map Token.shape =
      (before.filter (·.line == line)).map (respell chosen kind new) := by
  have filtered := congrArg (List.filter fun shape => shape.2.1 == line) same
  simpa only [List.filter_map, Function.comp_def, line_respell, Token.shape] using filtered

/-- Where each line keeps its tokens, so does the text, whatever is defined. -/
theorem KeepsAllTokens.tokensKept (spelling : Spelling kind new) {text result : String} {defines : List String}
    (known : ∀ t ∈ plainTokens text, chosen t = true → t ∈ (lex text defines).tokens ∧ t.isIdentifier = true)
    (replaced : Rename.Replaced new (((plainTokens text).filter chosen).map (·.span)) text result)
    (keeps : KeepsAllTokens chosen kind new text defines) (others : List String) :
    TokensKept chosen kind new text result others := by
  have lines := respelledNames_of_replaced spelling (fun t member one => (known t member one).2) replaced
  refine lines.shapes spelling (eachPlainLine ?_) others [] 0
  intro before piece after pieces plain
  rw [Nat.zero_add, Nat.zero_add]
  have here := keeps _ _ (getElem?_ofText pieces)
  rcases filter_lex pieces defines with none | ⟨-, all⟩
  · -- On a line that is not active nothing is chosen.
    refine keepsTokens_of_none fun t member => ?_
    by_contra one
    have listed := (known t (mem_plainTokens pieces plain member) (by simpa using one)).1
    obtain ⟨_, _, _, _, -, -, number, -⟩ := (lexes_lexLine ..).place_of_mem member
    exact List.filter_eq_nil_iff.mp none t listed (by simp [number])
  · rwa [all] at here

private theorem TokensKept.keepsAllTokens (spelling : Spelling kind new) {text result : String} {defines : List String}
    (known : ∀ t ∈ plainTokens text, chosen t = true → t ∈ (lex text defines).tokens ∧ t.isIdentifier = true)
    (replaced : Rename.Replaced new (((plainTokens text).filter chosen).map (·.span)) text result)
    (kept : TokensKept chosen kind new text result defines) : KeepsAllTokens chosen kind new text defines := by
  intro line l found
  obtain ⟨before, piece, after, pieces, rfl, content⟩ := exists_split_of_getElem? found
  rw [content]
  rcases filter_lex pieces defines with none | ⟨plain, all⟩
  · rw [none]
    exact keepsTokens_of_none nofun
  · have lines := respelledNames_of_replaced spelling (fun t member one => (known t member one).2) replaced
    rw [pieces] at lines
    obtain ⟨above, other, below, changed, length, cut⟩ := lines.exists_line plain
    rw [Nat.zero_add, Nat.zero_add] at cut
    have shown := shapes_filter kept before.length
    rw [all] at shown ⊢
    rcases filter_lex changed defines with none | ⟨still, others⟩
    · -- Without a token in the new text the line had none before.
      rw [← length, none, List.map_nil] at shown
      rw [length] at shown
      rw [List.map_eq_nil_iff.mp shown.symm]
      exact keepsTokens_of_none nofun
    · rw [length] at others
      rw [others] at shown
      exact (cut.keepsTokens_iff spelling plain _).mpr ⟨still, shown⟩

private theorem filter_contains {some all : List Token} (inside : some.Sublist all) (distinct : all.Nodup) :
    all.filter some.contains = some := by
  induction inside with
  | slnil => rfl
  | @cons some all t inside ih =>
    obtain ⟨fresh, distinct⟩ := List.nodup_cons.mp distinct
    have missing : t ∉ some := fun member => fresh (inside.subset member)
    rw [List.filter_cons_of_neg (by simpa using missing), ih distinct]
  | @cons_cons some all t inside ih =>
    obtain ⟨fresh, distinct⟩ := List.nodup_cons.mp distinct
    have same : all.filter (t :: some).contains = all.filter some.contains := by
      refine List.filter_congr fun u member => ?_
      have different : u ≠ t := by
        rintro rfl
        exact fresh member
      simp [different]
    rw [List.filter_cons_of_pos (by simp), same, ih distinct]

end Syntax

namespace Check.Environment

private theorem filter_standing (env : Environment) (path : Path) (text : String) (defines : List String)
    (name : String)
    (id : SymbolId) : (plainTokens text).filter (env.standing (Analysis.ofText path text defines) name id).contains =
      env.standing (Analysis.ofText path text defines) name id := by
  have order := env.standing_sublist path text defines name id
  refine filter_contains (order.trans (lex_sublist_plainTokens text defines)) ?_
  exact (nodup_allTokens text).sublist (plainTokens_sublist text)

private theorem identifier_of_standing {options : Options} {path : Path} {text : String} {defines : List String}
    {name : String} {id : SymbolId} {t : Token}
    (stands : t ∈ (ofOptions options).standing (Analysis.ofText path text defines) name id) :
    t ∈ (lex text defines).tokens ∧ t.isIdentifier = true := by
  obtain ⟨m, b, resolved, -, -, rfl⟩ := mem_standing.mp stands
  exact identifier_of_mark (name_of_resolution resolved).1

end Check.Environment

/-- Renaming in a solution of one document. What is rewritten are identifiers of the document, and the new text has the
tokens of the old one, with the new text as an identifier in the place of those, exactly if no two tokens of a line run
into each other and no line becomes a directive. Then this is so whatever is defined. -/
theorem rename_keeps_tokens_iff {s : Solution} (run : Reachable s) {p : Project} (listed : p ∈ s.projects)
    {d : Document} (inside : d ∈ p.documents) (alone : s.documents = [d]) {lookup : Lookup} {span : Span}
    {strategy : Rename.Strategy} {change : String → String} {plan : Plan}
    (made : ((Service.plain lookup).plan s d span strategy change).run = .ok (some plan)) {defines : List String}
    {name : Token} (single : (lex plan.new defines).tokens = [name]) (identifier : name.isIdentifier = true)
    (spans : name.span = ⟨0, plan.new.utf8ByteSize⟩) :
    ∃ options t result, s.options? p.id = some options ∧
      ((Service.plain lookup).apply { plan with strategy := .batched } s false).run = .ok t ∧
      t.documents.map (·.text) = [result] ∧
      let own := p.configuration.defines
      let rewritten := (Environment.ofOptions options).standing (Analysis.ofText d.path d.text own) plan.symbol.name
        plan.symbol.id
      let Kept := TokensKept rewritten.contains name.kind plan.new d.text result
      (∀ t ∈ rewritten, t ∈ (lex d.text own).tokens ∧ t.isIdentifier = true) ∧
        Rename.Replaced plan.new (rewritten.map (·.span)) d.text result ∧
        (Kept own ↔ KeepsAllTokens rewritten.contains name.kind plan.new d.text own) ∧
        (Kept own → ∀ others, Kept others) := by
  have only : s.Only p d := ⟨run.wellFormed, listed, inside, alone⟩
  obtain ⟨options, t, result, checked, applied, texts, replaced⟩ := only.exists_apply_of_plan made
  have spelling := spelling_of_lex single identifier spans
  have known : ∀ t ∈ plainTokens d.text, ((Environment.ofOptions options).standing (p.analysis d) plan.symbol.name
      plan.symbol.id).contains t = true → t ∈ (lex d.text p.configuration.defines).tokens ∧ t.isIdentifier = true :=
    fun t _ chosen => Environment.identifier_of_standing (List.contains_iff_mem.mp chosen)
  have places : Rename.Replaced plan.new (((plainTokens d.text).filter ((Environment.ofOptions options).standing
      (p.analysis d) plan.symbol.name plan.symbol.id).contains).map (·.span)) d.text result :=
    ((Environment.ofOptions options).filter_standing ..).symm ▸ replaced
  refine ⟨options, t, result, checked, applied, texts, fun t => Environment.identifier_of_standing, replaced, ?_, ?_⟩
  · exact ⟨TokensKept.keepsAllTokens spelling known places, fun keeps => keeps.tokensKept spelling known places _⟩
  · exact fun kept => (kept.keepsAllTokens spelling known places).tokensKept spelling known places

namespace Sample

/-! The name in its two spellings, renamed to a word and to a quoted name. -/

private def spelledTokens : List Token :=
  [quotedToken, ⟨.word, ⟨13, 2⟩, 0, 13, "ab"⟩, ⟨.word, ⟨21, 2⟩, 0, 21, "ab"⟩, ⟨.quoted, ⟨23, 6⟩, 0, 23, "``ab``"⟩]

private theorem spelled_standing :
    (Environment.ofOptions (spelling.options [])).standing (spelling.analysis spelled) quotedBinding.symbol.name
      quotedBinding.symbol.id = spelledTokens := by
  have stands : ∀ m, Mark.standsFor quotedBinding.symbol.name quotedBinding.symbol.id (m, some quotedBinding) = true :=
    fun m => Mark.standsFor_iff.mpr ⟨_, rfl, rfl, rfl⟩
  rw [Environment.standing, spelled_resolutions, List.filter_cons_of_pos (stands _),
    List.filter_cons_of_pos (stands _), List.filter_cons_of_neg (by simp [Mark.standsFor]), List.filter_cons_of_pos (stands _),
    List.filter_cons_of_pos (stands _)]
  rfl

private theorem spelled_replaced (new : String) :
    Rename.Replaced new (spelledTokens.map (·.span)) spelled.text
      ("let " ++ new ++ (" = " ++ new ++ (" xaby " ++ new ++ ("" ++ new ++ "")))) := by
  refine ⟨[⟨"let ", "``ab``"⟩, ⟨" = ", "ab"⟩, ⟨" xaby ", "ab"⟩, ⟨"", "``ab``"⟩], "", ?_, ?_, rfl⟩
  · decide
  · decide

private theorem exists_spelled_plan (new : String) : ∃ plan,
    ((Service.plain .precise).plan spellings spelled ⟨4, 6⟩ .batched fun _ => new).run = .ok (some plan) ∧
      plan.new = new ∧ plan.symbol = quotedBinding.symbol := by
  have filled : Span.isEmpty ⟨4, 6⟩ = false := by decide
  have cut : Span.slice? ⟨4, 6⟩ spelled.text = some "``ab``" := by decide
  obtain ⟨fileUses, made⟩ := spelled_plan filled cut (by decide) (by decide) (by decide +kernel) .batched
  obtain ⟨resolved, visibility, found, -, -, seen, whole⟩ := Service.resolved_of_plan made
  have again := Service.plan_of_resolved filled cut (by decide) found seen .batched fun _ => new
  exact ⟨_, again, rfl, (congrArg Plan.symbol whole).symm⟩

private theorem spellings_only : spellings.Only spelling spelled :=
  ⟨spellings_reachable.wellFormed, List.mem_singleton.mpr rfl, List.mem_singleton.mpr rfl, rfl⟩

/-- A word in the place of a quoted name runs into the word before it. -/
theorem tokens_run_together : ∃ plan name t,
    ((Service.plain .precise).plan spellings spelled ⟨4, 6⟩ .batched fun _ => "x").run = .ok (some plan) ∧
      (lex plan.new []).tokens = [name] ∧ name.isIdentifier = true ∧ name.span = ⟨0, plan.new.utf8ByteSize⟩ ∧
      ((Service.plain .precise).apply { plan with strategy := .batched } spellings false).run = .ok t ∧
      t.documents.map (·.text) = ["let x = x xaby xx"] ∧
      (lex "let x = x xaby xx" []).tokens.length ≠ (lex spelled.text []).tokens.length := by
  obtain ⟨plan, made, new, symbol⟩ := exists_spelled_plan "x"
  obtain ⟨options, t, result, checked, applied, texts, replaced⟩ := spellings_only.exists_apply_of_plan made
  obtain rfl : spelling.options [] = options := Option.some.inj checked
  rw [symbol, spelled_standing, new] at replaced
  obtain rfl := replaced.unique (spelled_replaced "x")
  refine ⟨plan, ⟨.word, ⟨0, 1⟩, 0, 0, "x"⟩, t, made, ?_, rfl, ?_, applied, texts, by decide +kernel⟩
  · rw [new]
    decide
  · rw [new]
    decide

private theorem spelled_keepsAllTokens :
    KeepsAllTokens spelledTokens.contains .quoted "``x``" spelled.text spelling.configuration.defines := by
  have lines : Line.ofText spelled.text.toList = [⟨0, spelled.text.toList⟩] := by decide
  intro line l found
  rw [lines] at found
  obtain ⟨rfl, rfl⟩ : line = 0 ∧ ⟨0, spelled.text.toList⟩ = l := by
    cases line with
    | zero => exact ⟨rfl, Option.some.inj found⟩
    | succ line => cases found
  exact ⟨by decide +kernel, nofun⟩

/-- A quoted name stays apart from the words and the names that it touches. -/
theorem tokens_with_fences : ∃ plan name t,
    ((Service.plain .precise).plan spellings spelled ⟨4, 6⟩ .batched fun _ => "``x``").run = .ok (some plan) ∧
      (lex plan.new []).tokens = [name] ∧ name.isIdentifier = true ∧ name.span = ⟨0, plan.new.utf8ByteSize⟩ ∧
      ((Service.plain .precise).apply { plan with strategy := .batched } spellings false).run = .ok t ∧
      t.documents.map (·.text) = ["let ``x`` = ``x`` xaby ``x````x``"] ∧
      KeepsAllTokens spelledTokens.contains .quoted "``x``" spelled.text [] ∧
      ∀ defines, TokensKept spelledTokens.contains .quoted "``x``" spelled.text "let ``x`` = ``x`` xaby ``x````x``"
        defines := by
  obtain ⟨plan, made, new, symbol⟩ := exists_spelled_plan "``x``"
  have single : (lex plan.new []).tokens = [⟨.quoted, ⟨0, 5⟩, 0, 0, "``x``"⟩] := by
    rw [new]
    decide
  have spans : (⟨0, 5⟩ : Span) = ⟨0, plan.new.utf8ByteSize⟩ := by
    rw [new]
    decide
  obtain ⟨options, t, result, checked, applied, texts, -, replaced, kept, always⟩ :=
    rename_keeps_tokens_iff spellings_reachable (List.mem_singleton.mpr rfl) (List.mem_singleton.mpr rfl) rfl made single
      rfl spans
  obtain rfl : spelling.options [] = options := Option.some.inj checked
  have standing : (Environment.ofOptions (spelling.options [])).standing (Analysis.ofText spelled.path spelled.text
      spelling.configuration.defines) plan.symbol.name plan.symbol.id = spelledTokens := symbol ▸ spelled_standing
  simp only [standing, new] at replaced kept always
  obtain rfl := replaced.unique (spelled_replaced "``x``")
  exact ⟨plan, _, t, made, single, rfl, spans, applied, texts, spelled_keepsAllTokens,
    always (kept.mpr spelled_keepsAllTokens)⟩

end Sample

end CrossRef
