import CrossRef.Proofs.TokenPlaces
import CrossRef.Syntax.Candidate

/-! Which token a cursor means. It is looked up by the line of the cursor and then by offset, while a check knows
its tokens by line and columns only; the last column of a token on its line is enough to tell it from all others. -/

namespace CrossRef

namespace Text

theorem occursIn_append (front part back : List Char) : occursIn part (front ++ (part ++ back)) = true := by
  induction front with
  | nil =>
    cases part with
    | nil => cases back <;> simp [occursIn]
    | cons c part =>
      have starts : (c :: part).isPrefixOf (c :: (part ++ back)) = true := by
        rw [List.isPrefixOf_iff_prefix]
        exact ⟨back, rfl⟩
      simp [occursIn, starts]
  | cons c front ih => simp [occursIn, ih]

end Text

namespace Syntax

theorem occursIn_unquote (name : String) : Text.occursIn (unquote name).toList name.toList = true := by
  have whole : Text.occursIn name.toList name.toList = true := by
    simpa using Text.occursIn_append [] name.toList []
  unfold unquote
  split
  · rename_i inner found
    split
    · exact whole
    · unfold fenced? at found
      split at found
      · rename_i cs shown
        split at found
        · cases found
          have inside := Text.occursIn_append fence (cs.take (cs.length - 2)) (cs.drop (cs.length - 2))
          rw [List.take_append_drop] at inside
          rw [shown, String.toList_ofList]
          exact inside
        · cases found
      · cases found
  · exact whole

def Token.isName (t : Token) : Bool :=
  t.isIdentifier || t.kind == .keyword

theorem isName_of_isIdentifier {t : Token} (named : t.isIdentifier = true) : t.isName = true := by
  rw [Token.isName, named, Bool.true_or]

theorem mem_of_splitAtToken {p : Token → Bool} {before passed tokens : List Token} {t : Token}
    (found : splitAtToken p before tokens = some (passed, t)) : t ∈ tokens ∧ p t = true := by
  induction tokens generalizing before with
  | nil => cases found
  | cons first rest ih =>
    rw [splitAtToken] at found
    split at found
    · cases found
      exact ⟨List.mem_cons_self .., by assumption⟩
    · obtain ⟨member, meets⟩ := ih found
      exact ⟨List.mem_cons_of_mem _ member, meets⟩

theorem splitAtToken_eq_none {p : Token → Bool} {before tokens : List Token}
    (missed : splitAtToken p before tokens = none) : ∀ t ∈ tokens, p t = false := by
  induction tokens generalizing before with
  | nil => exact fun t member => nomatch member
  | cons first rest ih =>
    rw [splitAtToken] at missed
    split at missed
    · cases missed
    · intro t member
      rcases List.mem_cons.mp member with rfl | later
      · simp_all
      · exact ih missed t later

private theorem splitAtToken_congr {p q : Token → Bool} {tokens : List Token} (same : ∀ t ∈ tokens, p t = q t)
    (before : List Token) : splitAtToken p before tokens = splitAtToken q before tokens := by
  induction tokens generalizing before with
  | nil => rfl
  | cons first rest ih =>
    rw [splitAtToken, splitAtToken, same first (List.mem_cons_self ..), ih]
    intro t later
    exact same t (List.mem_cons_of_mem _ later)

/-- The token that a cursor means among those of its line, with the ones before it in reverse. -/
def selectAt (tokens : List Token) (offset : Nat) (lookup : Lookup) : Option (List Token × Token) :=
  splitAtToken (fun t => t.isName && t.span.contains offset) [] tokens <|>
    match lookup with
    | .greedy => splitAtToken (fun t => t.isName && t.span.stop == offset) [] tokens
    | .precise => none

theorem candidateAt_eq (text : String) (offset : Nat) (defines : List String) (lookup : Lookup) :
    candidateAt text offset defines lookup =
      ((LineIndex.ofText text).lineOf? offset).bind fun line =>
        ((LineIndex.ofText text).lineSpan? line).bind fun span =>
          (selectAt ((lex text defines).tokens.filter (·.line == line)) offset lookup).bind fun found =>
            some ⟨found.2.span, found.2.kind == .keyword, line, found.2.column, found.2.endColumn,
              (span.slice? text).getD "", island found.1 found.2⟩ := by
  cases lookup <;> rfl

theorem mem_of_selectAt {tokens before : List Token} {offset : Nat} {lookup : Lookup} {t : Token}
    (found : selectAt tokens offset lookup = some (before, t)) :
    t ∈ tokens ∧ t.isName = true ∧ t.span.start ≤ offset ∧ offset ≤ t.span.stop := by
  simp only [selectAt, Option.orElse_eq_orElse, Option.orElse_eq_or] at found
  rcases Option.or_eq_some_iff.mp found with inside | ⟨-, behind⟩
  · obtain ⟨member, meets⟩ := mem_of_splitAtToken inside
    simp only [Bool.and_eq_true, Span.contains, decide_eq_true_eq] at meets
    obtain ⟨named, first, last⟩ := meets
    exact ⟨member, named, first, Nat.le_of_lt last⟩
  · cases lookup with
    | precise => cases behind
    | greedy =>
      obtain ⟨member, meets⟩ := mem_of_splitAtToken behind
      simp only [Bool.and_eq_true, beq_iff_eq] at meets
      obtain ⟨named, rfl⟩ := meets
      exact ⟨member, named, Nat.le_add_right .., Nat.le_refl _⟩

@[simp] theorem getLast?_island (before : List Token) (t : Token) : (island before t).getLast? = some t.name := by
  unfold island
  fun_cases islandBefore [] before t with
  | case1 => rw [islandBefore_eq, List.getLast?_append]; rfl
  | case2 => rfl
  | case3 => rfl

theorem token_of_candidateAt {text : String} {offset : Nat} {defines : List String} {lookup : Lookup}
    {candidate : Candidate} (found : candidateAt text offset defines lookup = some candidate) :
    ∃ t ∈ (lex text defines).tokens, t.isName = true ∧ t.span.start ≤ offset ∧ offset ≤ t.span.stop ∧
      ∃ before content, candidate =
          ⟨t.span, t.kind == .keyword, t.line, t.column, t.endColumn, content, island before t⟩ ∧
        (Span.ofBounds t.column t.endColumn).slice? content = some t.text := by
  rw [candidateAt_eq] at found
  obtain ⟨line, -, found⟩ := Option.bind_eq_some_iff.mp found
  obtain ⟨span, here, found⟩ := Option.bind_eq_some_iff.mp found
  obtain ⟨⟨before, t⟩, selected, found⟩ := Option.bind_eq_some_iff.mp found
  obtain ⟨member, named, first, last⟩ := mem_of_selectAt selected
  obtain ⟨token, number⟩ := List.mem_filter.mp member
  obtain rfl : t.line = line := by simpa using number
  obtain ⟨other, content, same, cut, shown⟩ := shown_on_line ((lex_sublist text defines).subset token)
  obtain rfl : span = other := Option.some.inj (here.symm.trans same)
  cases found
  exact ⟨t, token, named, first, last, before, content, by rw [cut]; rfl, shown⟩

theorem eq_of_contains {text : String} {t u : Token} (first : t ∈ allTokens text) (second : u ∈ allTokens text)
    {offset : Nat} (inside : t.span.contains offset = true) (also : u.span.contains offset = true) : t = u := by
  by_contra different
  have apart := disjoint_of_ne first second different
  simp only [Span.contains, Bool.and_eq_true, decide_eq_true_eq] at inside also
  omega

/-- Around a cursor inside a name there is nothing else to select. -/
theorem selectAt_inside {text : String} {tokens : List Token} (known : ∀ u ∈ tokens, u ∈ allTokens text) {t : Token}
    (member : t ∈ tokens) (named : t.isName = true) {offset : Nat} (inside : t.span.contains offset = true)
    (lookup : Lookup) : selectAt tokens offset lookup = splitAtToken (fun u => decide (u = t)) [] tokens := by
  have only : ∀ u ∈ tokens, (u.isName && u.span.contains offset) = decide (u = t) := by
    intro u listed
    rw [Bool.eq_iff_iff, decide_eq_true_eq, Bool.and_eq_true]
    constructor
    · intro ⟨_, also⟩
      exact eq_of_contains (known u listed) (known t member) also inside
    · intro same
      exact same ▸ ⟨named, inside⟩
  unfold selectAt
  rw [splitAtToken_congr only]
  cases found : splitAtToken (fun u => decide (u = t)) [] tokens with
  | some _ => rfl
  | none =>
    have missed := splitAtToken_eq_none found t member
    simp at missed

private theorem line_inside {text : String} {t : Token} (known : t ∈ allTokens text) {offset : Nat}
    (inside : t.span.contains offset = true) : (LineIndex.ofText text).lineOf? offset = some t.line := by
  simp only [Span.contains, Bool.and_eq_true, decide_eq_true_eq] at inside
  exact lineOf?_of_mem_allTokens known inside.1 (Nat.le_of_lt inside.2)

section inside

variable {text : String} {defines : List String} {t : Token} {offset other : Nat}
  (member : t ∈ (lex text defines).tokens) (named : t.isName = true) (first : t.span.contains offset = true)

include member named first

private theorem candidateAt_select (lookup : Lookup) :
    candidateAt text offset defines lookup =
      ((LineIndex.ofText text).lineSpan? t.line).bind fun span =>
        (splitAtToken (fun u => decide (u = t)) [] ((lex text defines).tokens.filter (·.line == t.line))).bind fun found =>
          some ⟨found.2.span, found.2.kind == .keyword, t.line, found.2.column, found.2.endColumn,
            (span.slice? text).getD "", island found.1 found.2⟩ := by
  have known : ∀ u ∈ (lex text defines).tokens.filter (·.line == t.line), u ∈ allTokens text :=
    fun u inside => (lex_sublist text defines).subset (List.mem_of_mem_filter inside)
  have listed : t ∈ (lex text defines).tokens.filter (·.line == t.line) := List.mem_filter.mpr ⟨member, by simp⟩
  simp only [candidateAt_eq, line_inside (known t listed) first, Option.bind_some,
    selectAt_inside known listed named first]

theorem span_of_candidateAt {lookup : Lookup} {candidate : Candidate}
    (found : candidateAt text offset defines lookup = some candidate) : candidate.span = t.span := by
  rw [candidateAt_select member named first] at found
  obtain ⟨span, -, found⟩ := Option.bind_eq_some_iff.mp found
  obtain ⟨⟨before, u⟩, selected, found⟩ := Option.bind_eq_some_iff.mp found
  obtain rfl : u = t := by simpa using (mem_of_splitAtToken selected).2
  cases found
  rfl

/-- Wherever a cursor is inside one name, it means the same. -/
theorem candidateAt_inside (second : t.span.contains other = true) (lookup : Lookup) :
    candidateAt text offset defines lookup = candidateAt text other defines lookup := by
  rw [candidateAt_select member named first, candidateAt_select member named second]

end inside

end Syntax

end CrossRef
