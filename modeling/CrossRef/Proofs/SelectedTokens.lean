import CrossRef.Proofs.TiledLines

/-! What a cursor selects. Only the tokens of one line are looked at, and the line is taken from the line index, not from
the lexer. A token is on that line wherever the cursor is from its first byte to the one behind it, so no name of the
whole text is missed. The names that qualify it are found by stepping back over two tokens at a time: tokens that touch
are on one line and next to each other, so the path stops only where nothing more is joined. -/

namespace CrossRef

theorem Text.between?_trans {text first second : String} {start middle stop : Nat}
    (left : between? text start middle = some first) (right : between? text middle stop = some second) :
    between? text start stop = some (first ++ second) := by
  obtain ⟨front, rest, rfl, rfl, rfl⟩ := between?_eq_some_iff.mp left
  obtain ⟨before, after, same, start, rfl⟩ := between?_eq_some_iff.mp right
  rw [String.append_assoc, String.append_assoc, ← String.append_assoc] at same
  obtain ⟨rfl, rfl⟩ := Rename.append_inj_of_size same start.symm
  refine between?_eq_some_iff.mpr ⟨front, after, ?_, rfl, ?_⟩
  · simp only [String.append_assoc]
  · rw [String.append_assoc]

namespace Syntax

/-- An identifier that a point joins to a token, with no gap. -/
def Token.Qualifies (text : String) (tokens : List Token) (q t : Token) : Prop :=
  q ∈ tokens ∧ q.isIdentifier = true ∧ Text.between? text q.span.stop t.span.start = some "."

/-- The identifiers that qualify a token, each of them the one behind it; the nearest one is the first. -/
def Token.IsPath (text : String) (tokens : List Token) (t : Token) (path : List Token) : Prop :=
  (t :: path).IsChain fun a b => b.Qualifies text tokens a

private theorem split_of_splitAtToken {p : Token → Bool} {before passed tokens : List Token} {t : Token}
    (found : splitAtToken p before tokens = some (passed, t)) :
    ∃ back, before.reverse ++ tokens = passed.reverse ++ t :: back := by
  induction tokens generalizing before with
  | nil => cases found
  | cons first rest ih =>
    rw [splitAtToken] at found
    split at found
    · cases found
      exact ⟨rest, rfl⟩
    · obtain ⟨back, parts⟩ := ih found
      exact ⟨back, by rw [← parts, List.reverse_cons, List.append_assoc, List.singleton_append]⟩

private theorem isSome_splitAtToken {p : Token → Bool} {before tokens : List Token} :
    (splitAtToken p before tokens).isSome = true ↔ ∃ t ∈ tokens, p t = true := by
  constructor
  · intro found
    obtain ⟨⟨passed, t⟩, found⟩ := Option.isSome_iff_exists.mp found
    obtain ⟨member, meets⟩ := mem_of_splitAtToken found
    exact ⟨t, member, meets⟩
  · rintro ⟨t, member, meets⟩
    by_contra missed
    have refused := splitAtToken_eq_none (Option.not_isSome_iff_eq_none.mp missed) t member
    exact Bool.false_ne_true (refused.symm.trans meets)

private theorem isSome_selectAt {tokens : List Token} {offset : Nat} {lookup : Lookup} :
    (selectAt tokens offset lookup).isSome = true ↔
      ∃ t ∈ tokens, t.isName = true ∧ (t.span.contains offset = true ∨ lookup = .greedy ∧ t.span.stop = offset) := by
  have inside := @isSome_splitAtToken (fun t => t.isName && t.span.contains offset) [] tokens
  have behind := @isSome_splitAtToken (fun t => t.isName && t.span.stop == offset) [] tokens
  simp only [Bool.and_eq_true, beq_iff_eq] at inside behind
  simp only [selectAt, Option.orElse_eq_orElse, Option.orElse_eq_or, Option.isSome_or, Bool.or_eq_true, inside]
  cases lookup with
  | precise => simp
  | greedy =>
    rw [behind]
    constructor
    · rintro (⟨t, member, named, contains⟩ | ⟨t, member, named, stop⟩)
      · exact ⟨t, member, named, .inl contains⟩
      · exact ⟨t, member, named, .inr ⟨rfl, stop⟩⟩
    · rintro ⟨t, member, named, contains | ⟨-, stop⟩⟩
      · exact .inl ⟨t, member, named, contains⟩
      · exact .inr ⟨t, member, named, stop⟩

/-- A name that ends at the cursor is selected only if none is around it. -/
theorem split_of_selectAt {tokens before : List Token} {offset : Nat} {lookup : Lookup} {t : Token}
    (found : selectAt tokens offset lookup = some (before, t)) :
    (∃ back, tokens = before.reverse ++ t :: back) ∧ t.isName = true ∧
      (t.span.contains offset = true ∨ lookup = .greedy ∧ t.span.stop = offset ∧
        ∀ u ∈ tokens, u.isName = true → u.span.contains offset = false) := by
  simp only [selectAt, Option.orElse_eq_orElse, Option.orElse_eq_or] at found
  rcases Option.or_eq_some_iff.mp found with inside | ⟨missed, behind⟩
  · have meets := (mem_of_splitAtToken inside).2
    simp only [Bool.and_eq_true] at meets
    exact ⟨split_of_splitAtToken inside, meets.1, .inl meets.2⟩
  · cases lookup with
    | precise => cases behind
    | greedy =>
      have meets := (mem_of_splitAtToken behind).2
      simp only [Bool.and_eq_true, beq_iff_eq] at meets
      refine ⟨split_of_splitAtToken behind, meets.1, .inr ⟨rfl, meets.2, ?_⟩⟩
      intro u member named
      have refused := splitAtToken_eq_none missed u member
      rwa [named, Bool.true_and] at refused

theorem Lexes.behind {line start column : Nat} {cs : List Char} {tokens : List Token} {t : Token}
    (cut : Lexes line start column cs tokens) (member : t ∈ tokens) :
    ∃ front rest later, cs = front ++ rest ∧ t.span.stop = start + (column + Text.size front) ∧ later ⊆ tokens ∧
      Lexes line start (column + Text.size front) rest later := by
  induction cut with
  | nothing => cases member
  | @gap column c cs tokens blank cut ih =>
    obtain ⟨front, rest, later, rfl, stop, inside, cut⟩ := ih member
    rw [Nat.add_assoc, ← Text.size_cons] at stop cut
    exact ⟨c :: front, rest, later, rfl, stop, inside, cut⟩
  | @token column c more cs tokens kind solid found cut ih =>
    rcases List.mem_cons.mp member with rfl | later
    · refine ⟨c :: more, cs, tokens, rfl, ?_, List.subset_cons_self .., cut⟩
      rw [cutToken, Span.stop, Nat.add_assoc]
    · obtain ⟨front, rest, later, rfl, stop, inside, cut⟩ := ih later
      rw [Nat.add_assoc, ← Text.size_append] at stop cut
      refine ⟨c :: more ++ front, rest, later, ?_, stop, List.subset_cons_of_subset _ inside, cut⟩
      rw [List.cons_append, List.cons_append, List.append_assoc]

private theorem lexeme_point (rest : List Char) : lexeme '.' rest = (.dot, 0) := by
  simp [lexeme, isWordStart, Char.isDigit]

private theorem lexeme_dot {c : Char} {rest : List Char} {n : Nat} (found : lexeme c rest = (.dot, n)) :
    c = '.' ∧ n = 0 := by
  unfold lexeme at found
  split_ifs at found with comment literal fence word number dot
  · cases found
  · cases found
  · split at found <;> cases found
  · obtain ⟨kind, -⟩ := Prod.mk.inj found
    split at kind <;> cases kind
  · cases found
  · cases found
    exact ⟨dot, rfl⟩
  · cases found

section point

variable {text : String} {defines : List String}

private theorem text_of_dot {dot : Token} (known : dot ∈ allTokens text) (point : dot.kind = .dot) :
    dot.text = "." := by
  obtain ⟨_, c, more, _, rest, -, shown, -, found, -⟩ := place_of_mem_allTokens known
  rw [point] at found
  obtain ⟨rfl, length⟩ := lexeme_dot found
  rw [shown, List.length_eq_zero_iff.mp length]

private theorem exists_dot {q : Token} (member : q ∈ (lex text defines).tokens) {stop : Nat}
    (joined : Text.between? text q.span.stop stop = some ".") :
    ∃ dot ∈ (lex text defines).tokens, dot.kind = .dot ∧ q.touches dot = true ∧ dot.span.stop = stop := by
  obtain ⟨l, listed, read, inside⟩ := line_of_mem_lex member
  obtain ⟨front, rest, later, content, place, subset, cut⟩ := (l.lexes read).behind inside
  obtain ⟨above, below, whole, start, gap⟩ := exists_content listed
  obtain ⟨left, right, parts, leftSize, stopSize⟩ := Text.between?_eq_some_iff.mp joined
  have next : rest ++ below = '.' :: right.toList := by
    have same : left ++ ("." ++ right) = String.ofList (above ++ front) ++ String.ofList (rest ++ below) := by
      rw [← String.append_assoc, ← parts, ← String.ofList_append, ← String.toList_inj, whole, content]
      simp
    have sizes : left.utf8ByteSize = (String.ofList (above ++ front)).utf8ByteSize := by
      rw [leftSize, place, ← Text.size_toList, String.toList_ofList, Text.size_append, start, Nat.zero_add]
    have tails := congrArg String.toList (Rename.append_inj_of_size same sizes).2
    rw [String.toList_ofList, String.toList_append] at tails
    exact tails.symm
  cases rest with
  | nil => cases gap '.' (by rw [← List.nil_append below, next, List.head?_cons])
  | cons c rest =>
    obtain ⟨rfl, -⟩ := List.cons.inj next
    cases cut with
    | gap blank => cases blank
    | @token _ _ more _ _ _ solid found cut =>
      rw [lexeme_point] at found
      obtain ⟨rfl, length⟩ := Prod.mk.inj found
      obtain rfl := List.length_eq_zero_iff.mp length.symm
      refine ⟨cutToken .dot l.number l.start (0 + Text.size front) ['.'], ?_, rfl, ?_, ?_⟩
      · rw [lex_eq]
        exact List.mem_flatMap.mpr ⟨l, listed, subset (List.mem_cons_self ..)⟩
      · rw [Token.touches, place, beq_iff_eq]
        rfl
      · rw [← stopSize, String.utf8ByteSize_append, leftSize, place]
        rfl

end point

section places

variable {text : String} {t u : Token}

private theorem around_of_contains {s : Span} {offset : Nat} (inside : s.contains offset = true) :
    s.start ≤ offset ∧ offset ≤ s.stop := by
  obtain ⟨first, last⟩ := contains_iff.mp inside
  exact ⟨first, Nat.le_of_lt last⟩

private theorem line_eq_of_around (first : t ∈ allTokens text) (second : u ∈ allTokens text) {offset : Nat}
    (around : t.span.start ≤ offset ∧ offset ≤ t.span.stop) (also : u.span.start ≤ offset ∧ offset ≤ u.span.stop) :
    t.line = u.line := by
  have here := lineOf?_of_mem_allTokens first around.1 around.2
  rw [lineOf?_of_mem_allTokens second also.1 also.2] at here
  exact (Option.some.inj here).symm

private theorem eq_of_stop (first : t ∈ allTokens text) (second : u ∈ allTokens text)
    (same : t.span.stop = u.span.stop) :
    t = u := by
  by_contra different
  have apart := disjoint_of_ne first second different
  have filled := filled_of_mem_allTokens first
  have wide := filled_of_mem_allTokens second
  simp only [Span.stop] at same apart
  omega

end places

section path

variable {text : String} {defines : List String} {t : Token} {number : Nat} {before back : List Token}

/-- A token that touches another one is the one before it on its line. -/
theorem before_of_touches (parts : (lex text defines).tokens.filter (·.line == number) = before.reverse ++ t :: back)
    {u : Token} (member : u ∈ (lex text defines).tokens) (touches : u.touches t = true) :
    ∃ rest, before = u :: rest := by
  have known : ∀ v ∈ (lex text defines).tokens, v ∈ allTokens text :=
    fun v inside => (lex_sublist text defines).subset inside
  have listed : ∀ v ∈ before.reverse ++ t :: back, v ∈ (lex text defines).tokens ∧ (v.line == number) = true := by
    intro v inside
    rwa [← parts, List.mem_filter] at inside
  obtain ⟨here, line⟩ := listed t (by simp)
  have apart := ((apart_allTokens text).sublist (lex_sublist text defines)).filter (·.line == number)
  rw [parts] at apart
  obtain ⟨early, late, order⟩ := List.pairwise_append.mp apart
  have meets : u.span.stop = t.span.start := beq_iff_eq.mp touches
  have sameLine : t.line = u.line := by
    apply line_eq_of_around (known t here) (known u member) ⟨Nat.le_refl _, Nat.le_add_right ..⟩
    exact ⟨meets ▸ Nat.le_add_right .., Nat.le_of_eq meets.symm⟩
  have among : u ∈ before.reverse ++ t :: back := by
    rw [← parts, List.mem_filter, ← sameLine]
    exact ⟨member, line⟩
  rcases List.mem_append.mp among with first | last
  · cases before with
    | nil => cases first
    | cons v rest =>
      rcases List.mem_cons.mp (List.mem_reverse.mp first) with rfl | earlier
      · exact ⟨rest, rfl⟩
      · -- Nothing fits between two tokens that touch.
        rw [List.reverse_cons] at early
        have near : u.span.stop ≤ v.span.start :=
          (List.pairwise_append.mp early).2.2 u (List.mem_reverse.mpr earlier) v (List.mem_singleton_self v)
        have inside : v.span.stop ≤ t.span.start := order v (by simp) t (List.mem_cons_self ..)
        have filled := filled_of_mem_allTokens (known v (listed v (by simp)).1)
        simp only [Span.stop] at near inside meets
        omega
  · have filled := filled_of_mem_allTokens (known u member)
    have wide := filled_of_mem_allTokens (known t here)
    rcases List.mem_cons.mp last with rfl | later
    · simp only [Span.stop] at meets
      omega
    · have behind := List.rel_of_pairwise_cons late later
      simp only [Span.stop] at meets behind
      omega

/-- A qualifier is found two tokens before the token, with the point between them. -/
theorem qualifies_iff (parts : (lex text defines).tokens.filter (·.line == number) = before.reverse ++ t :: back)
    {q : Token} : q.Qualifies text (lex text defines).tokens t ↔
      ∃ dot rest, before = dot :: q :: rest ∧ dot.kind = .dot ∧ q.isIdentifier = true ∧ q.touches dot = true ∧
        dot.touches t = true := by
  constructor
  · rintro ⟨member, identifier, joined⟩
    obtain ⟨dot, here, point, first, stop⟩ := exists_dot member joined
    have second : dot.touches t = true := beq_iff_eq.mpr stop
    obtain ⟨rest, rfl⟩ := before_of_touches parts here second
    rw [List.reverse_cons, List.append_assoc, List.singleton_append] at parts
    obtain ⟨rest, rfl⟩ := before_of_touches parts member first
    exact ⟨dot, rest, rfl, point, identifier, first, second⟩
  · rintro ⟨dot, rest, rfl, point, identifier, first, second⟩
    have listed : ∀ v ∈ (dot :: q :: rest).reverse ++ t :: back, v ∈ (lex text defines).tokens := by
      intro v inside
      rw [← parts] at inside
      exact List.mem_of_mem_filter inside
    have known := (lex_sublist text defines).subset (listed dot (by simp))
    have shown := Rename.slice?_of_mem_allTokens known
    rw [Span.slice?, text_of_dot known point, ← beq_iff_eq.mp first, beq_iff_eq.mp second] at shown
    exact ⟨listed q (by simp), identifier, shown⟩

private theorem prefix_nil_of_unqualified {tokens path : List Token} (alone : ∀ q : Token, ¬q.Qualifies text tokens t)
    (isPath : t.IsPath text tokens path) : path <+: [] := by
  cases path with
  | nil => exact List.nil_prefix
  | cons q path => exact absurd (List.isChain_cons_cons.mp isPath).1 (alone q)

/-- The names in front of a token are those of the longest path that qualifies it. -/
theorem exists_path (names : List String)
    (parts : (lex text defines).tokens.filter (·.line == number) = before.reverse ++ t :: back) :
    ∃ path, t.IsPath text (lex text defines).tokens path ∧
      (∀ other, t.IsPath text (lex text defines).tokens other → other <+: path) ∧
      islandBefore names before t = (t :: path).reverse.map Token.name ++ names := by
  fun_induction islandBefore names before t generalizing back with
  | case1 names dot q before t joined ih =>
    obtain ⟨point, identifier, first, second⟩ := joined
    have steps := parts
    rw [List.reverse_cons, List.reverse_cons, List.append_assoc, List.append_assoc, List.singleton_append,
      List.singleton_append] at steps
    obtain ⟨path, isPath, longest, shown⟩ := ih steps
    have qualifies := (qualifies_iff parts).mpr ⟨dot, before, rfl, point, identifier, first, second⟩
    refine ⟨q :: path, List.isChain_cons_cons.mpr ⟨qualifies, isPath⟩, ?_, ?_⟩
    · intro other chain
      cases other with
      | nil => exact List.nil_prefix
      | cons u other =>
        obtain ⟨head, tail⟩ := List.isChain_cons_cons.mp chain
        obtain ⟨_, _, same, -⟩ := (qualifies_iff parts).mp head
        cases same
        exact (List.prefix_cons_inj q).mpr (longest other tail)
    · rw [shown]
      simp
  | case2 names dot q before t apart =>
    refine ⟨[], .singleton t, fun other chain => ?_, rfl⟩
    apply prefix_nil_of_unqualified _ chain
    intro u qualifies
    obtain ⟨_, _, same, joined⟩ := (qualifies_iff parts).mp qualifies
    cases same
    exact apart joined
  | case3 names before t short =>
    refine ⟨[], .singleton t, fun other chain => ?_, rfl⟩
    apply prefix_nil_of_unqualified _ chain
    intro u qualifies
    obtain ⟨_, _, same, -⟩ := (qualifies_iff parts).mp qualifies
    exact short _ _ _ same

theorem IsPath.between? {path : List Token} (isPath : t.IsPath text (lex text defines).tokens path)
    (member : t ∈ (lex text defines).tokens) :
    Text.between? text (path.getLastD t).span.start t.span.stop =
      some (".".intercalate ((t :: path).reverse.map Token.text)) := by
  have shown : Text.between? text t.span.start t.span.stop = some t.text :=
    Rename.slice?_of_mem_allTokens ((lex_sublist text defines).subset member)
  induction path generalizing t with
  | nil =>
    rw [List.getLastD_nil, shown]
    simp
  | cons q path ih =>
    obtain ⟨⟨inside, -, joined⟩, rest⟩ := List.isChain_cons_cons.mp isPath
    have before := ih rest inside (Rename.slice?_of_mem_allTokens ((lex_sublist text defines).subset inside))
    have texts : (t :: q :: path).reverse.map Token.text = (q :: path).reverse.map Token.text ++ [t.text] := by simp
    rw [List.getLastD_cons, Text.between?_trans before (Text.between?_trans joined shown), texts,
      String.intercalate_append_of_ne_nil (by simp) (by simp), String.intercalate_singleton, String.append_assoc]

end path

variable {text : String} {defines : List String} {offset : Nat} {lookup : Lookup}

theorem isSome_candidateAt : (candidateAt text offset defines lookup).isSome = true ↔
    ∃ t ∈ (lex text defines).tokens, t.isName = true ∧
      (t.span.contains offset = true ∨ lookup = .greedy ∧ t.span.stop = offset) := by
  rw [candidateAt_eq]
  constructor
  · intro found
    obtain ⟨c, found⟩ := Option.isSome_iff_exists.mp found
    obtain ⟨line, -, found⟩ := Option.bind_eq_some_iff.mp found
    obtain ⟨span, -, found⟩ := Option.bind_eq_some_iff.mp found
    obtain ⟨selected, here, -⟩ := Option.bind_eq_some_iff.mp found
    obtain ⟨t, member, meets⟩ := isSome_selectAt.mp (Option.isSome_of_eq_some here)
    exact ⟨t, List.mem_of_mem_filter member, meets⟩
  · rintro ⟨t, member, named, place⟩
    have known := (lex_sublist text defines).subset member
    have around : t.span.start ≤ offset ∧ offset ≤ t.span.stop := by
      rcases place with inside | ⟨-, rfl⟩
      · exact around_of_contains inside
      · exact ⟨Nat.le_add_right .., Nat.le_refl _⟩
    obtain ⟨span, content, line, -, -⟩ := shown_on_line known
    have listed : t ∈ (lex text defines).tokens.filter (·.line == t.line) := List.mem_filter.mpr ⟨member, by simp⟩
    have selects := isSome_selectAt.mpr ⟨t, listed, named, place⟩
    rw [lineOf?_of_mem_allTokens known around.1 around.2, Option.bind_some, line, Option.bind_some, Option.isSome_bind]
    simpa using selects

/-- A cursor finds something exactly if a name of the text is around it, or ends at it where that is enough. It is the
name around the cursor if there is one, and is told with its place and its line. The names before it are those of the
longest path that qualifies it, and from where that path starts the text is its tokens joined with points. -/
theorem candidateAt_exact (text : String) (offset : Nat) (defines : List String) (lookup : Lookup) :
    let tokens := (lex text defines).tokens
    ((candidateAt text offset defines lookup).isSome = true ↔ ∃ t ∈ tokens, t.isName = true ∧
      (t.span.contains offset = true ∨ lookup = .greedy ∧ t.span.stop = offset)) ∧
    ∀ c, candidateAt text offset defines lookup = some c → ∃ t ∈ tokens, t.isName = true ∧
      (t.span.contains offset = true ∧ (∀ u ∈ tokens, u.span.contains offset = true → u = t) ∨
        lookup = .greedy ∧ t.span.stop = offset ∧ (∀ u ∈ tokens, u.span.stop = offset → u = t) ∧
          ∀ u ∈ tokens, u.isName = true → u.span.contains offset = false) ∧
      c.span = t.span ∧ c.isKeyword = (t.kind == .keyword) ∧ c.line = t.line ∧ c.startColumn = t.column ∧
      c.endColumn = t.endColumn ∧ ((LineIndex.ofText text).lineSpan? c.line).bind (·.slice? text) = some c.lineText ∧
      (Span.ofBounds c.startColumn c.endColumn).slice? c.lineText = some t.text ∧
      ∃ path, t.IsPath text tokens path ∧ (∀ other, t.IsPath text tokens other → other <+: path) ∧
        c.island = (t :: path).reverse.map Token.name ∧
        Text.between? text (path.getLastD t).span.start c.span.stop =
          some (".".intercalate ((t :: path).reverse.map Token.text)) := by
  intro tokens
  refine ⟨isSome_candidateAt, ?_⟩
  intro c found
  rw [candidateAt_eq] at found
  obtain ⟨line, -, found⟩ := Option.bind_eq_some_iff.mp found
  obtain ⟨span, here, found⟩ := Option.bind_eq_some_iff.mp found
  obtain ⟨⟨before, t⟩, selected, found⟩ := Option.bind_eq_some_iff.mp found
  obtain ⟨⟨back, parts⟩, named, place⟩ := split_of_selectAt selected
  have known : ∀ u ∈ tokens, u ∈ allTokens text := fun u inside => (lex_sublist text defines).subset inside
  obtain ⟨member, number⟩ := List.mem_filter.mp (mem_of_selectAt selected).1
  obtain rfl : t.line = line := beq_iff_eq.mp number
  obtain ⟨other, content, same, cut, shown⟩ := shown_on_line (known t member)
  obtain rfl : span = other := Option.some.inj (here.symm.trans same)
  obtain ⟨path, isPath, longest, names⟩ := exists_path [] parts
  rw [List.append_nil] at names
  rw [cut] at found
  cases found
  have source := IsPath.between? isPath member
  refine ⟨t, member, named, ?_, rfl, rfl, rfl, rfl, rfl, ?_, shown, path, isPath, longest, names, source⟩
  · rcases place with inside | ⟨greedy, stop, outside⟩
    · left
      exact ⟨inside, fun u listed also => eq_of_contains (known u listed) (known t member) also inside⟩
    · right
      refine ⟨greedy, stop, ?_, ?_⟩
      · exact fun u listed also => eq_of_stop (known u listed) (known t member) (also.trans stop.symm)
      · intro u listed name
        by_contra contains
        rw [Bool.not_eq_false] at contains
        -- A name around the cursor would be on the line that is looked at.
        have line := line_eq_of_around (known u listed) (known t member) (around_of_contains contains)
          ⟨stop ▸ Nat.le_add_right .., Nat.le_of_eq stop.symm⟩
        rw [outside u (List.mem_filter.mpr ⟨listed, beq_iff_eq.mpr line⟩) name] at contains
        cases contains
  · simp only [here, Option.bind_some, cut, Option.getD_some]

end Syntax

end CrossRef

namespace CrossRef.Sample
open Syntax

def qualifiedText : String :=
  "#if A\r\n#else\r\né A.``b c``.d\r\n#endif"

/-- Behind its last segment the whole of it is selected. -/
theorem qualified_name_selected :
    ∃ t ∈ (lex qualifiedText []).tokens, t.isName = true ∧ t.span.stop = 28 ∧
      ∃ path, t.IsPath qualifiedText (lex qualifiedText []).tokens path ∧
        (t :: path).reverse.map Token.name = ["A", "b c", "d"] ∧
        Text.between? qualifiedText (path.getLastD t).span.start 28 =
          some (".".intercalate ((t :: path).reverse.map Token.text)) := by
  obtain ⟨-, exact_⟩ := candidateAt_exact qualifiedText 28 [] .greedy
  have found : candidateAt qualifiedText 28 [] .greedy =
      some ⟨⟨27, 1⟩, false, 2, 13, 14, "é A.``b c``.d", ["A", "b c", "d"]⟩ := by decide
  obtain ⟨t, member, named, -, span, -, -, -, -, -, -, path, isPath, -, names, between⟩ := exact_ _ found
  refine ⟨t, member, named, by rw [← span]; rfl, path, isPath, names.symm, between⟩

end CrossRef.Sample
