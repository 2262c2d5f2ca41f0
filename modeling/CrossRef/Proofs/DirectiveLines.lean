import CrossRef.Proofs.ApartTokens
import Mathlib.Data.List.DropRight

/-! When a line in which identifiers have a new text becomes a directive. Behind its sign a directive has one of three
words. Two of them are keywords, so that no name can be spelled like them. The third one makes a directive exactly if
it takes the place of a name that stands alone behind a sign. -/

namespace CrossRef.Syntax

/-- What makes a line a directive, behind the sign. -/
def IsDirective (rest : List Char) : Prop :=
  (∃ c tail, rest.rdropWhile Text.isBlank = 'i' :: 'f' :: c :: tail ∧ Text.isBlank c = true) ∨
    rest.rdropWhile Text.isBlank = ['e', 'l', 's', 'e'] ∨
    rest.rdropWhile Text.isBlank = ['e', 'n', 'd', 'i', 'f']

private theorem rdropWhile_cons (p : Char → Bool) (c : Char) (cs : List Char) :
    (c :: cs).rdropWhile p = if cs.rdropWhile p = [] ∧ p c = true then [] else c :: cs.rdropWhile p := by
  induction cs using List.reverseRecOn with
  | nil => by_cases dropped : p c = true <;> simp [List.rdropWhile, dropped]
  | append_singleton cs d ih =>
    by_cases dropped : p d = true
    · rw [← List.cons_append, List.rdropWhile_concat_pos _ _ _ dropped, List.rdropWhile_concat_pos _ _ _ dropped, ih]
    · rw [← List.cons_append, List.rdropWhile_concat_neg _ _ _ dropped, List.rdropWhile_concat_neg _ _ _ dropped]
      simp

private theorem rdropWhile_append {p : Char → Bool} {word : List Char} (solid : ∀ x ∈ word, p x = false)
    (rest : List Char) : (word ++ rest).rdropWhile p = word ++ rest.rdropWhile p := by
  induction word with
  | nil => rfl
  | cons c word ih =>
    have here := solid c (List.mem_cons_self ..)
    rw [List.cons_append, rdropWhile_cons, ih fun x inside => solid x (List.mem_cons_of_mem _ inside)]
    simp [here]

theorem ofLine?_eq_none_iff (line : List Char) :
    Directive.ofLine? line = none ↔ ∀ rest, line.dropWhile Text.isBlank = '#' :: rest → ¬IsDirective rest := by
  have trimmed : Text.trim line = (line.dropWhile Text.isBlank).rdropWhile Text.isBlank := rfl
  rw [Directive.ofLine?, trimmed]
  cases front : line.dropWhile Text.isBlank with
  | nil => simp
  | cons x rest =>
    have solid : Text.isBlank x = false := by
      have := List.head?_dropWhile_not Text.isBlank line
      rw [front] at this
      simpa using this
    rw [rdropWhile_cons, if_neg (by simp [solid])]
    simp only [List.cons.injEq, and_imp, IsDirective]
    split
    · rename_i c cs whole
      obtain ⟨rfl, same⟩ := List.cons.inj whole
      by_cases blank : Text.isBlank c = true
      · rw [if_pos blank]
        simp [same, blank]
      · rw [if_neg blank]
        simp [same, blank]
    · rename_i whole
      obtain ⟨rfl, same⟩ := List.cons.inj whole
      simp [same]
    · rename_i whole
      obtain ⟨rfl, same⟩ := List.cons.inj whole
      simp [same]
    · rename_i opening alternative closing
      simp only [true_iff]
      rintro tail rfl rfl
      rintro (⟨c, cs, same, blank⟩ | same | same)
      · exact opening c cs (by rw [same])
      · exact alternative (by rw [same])
      · exact closing (by rw [same])

theorem isBlank_of_isWordChar {c : Char} (inside : isWordChar c = true) : Text.isBlank c = false := by
  have bounds := toNat_of_isWordChar inside
  by_contra blank
  simp only [Text.isBlank, Text.blankRanges, Bool.not_eq_false, List.any_cons, List.any_nil, Bool.or_eq_true,
    Bool.and_eq_true, decide_eq_true_eq, Bool.false_eq_true, or_false] at blank
  omega

private theorem isWordChar_of_isBlank {c : Char} (blank : Text.isBlank c = true) : isWordChar c = false := by
  by_contra inside
  rw [isBlank_of_isWordChar (by simpa using inside)] at blank
  cases blank

private theorem isWordStart_of_isBlank {c : Char} (blank : Text.isBlank c = true) : isWordStart c = false := by
  by_contra start
  have outside := isWordChar_of_isBlank blank
  rw [isWordChar_of_isWordStart (by simpa using start)] at outside
  cases outside

private theorem lexeme_blank {c : Char} (blank : Text.isBlank c = true) (rest : List Char) :
    (lexeme c rest).2 = 0 := by
  have outside := isWordChar_of_isBlank blank
  have start := isWordStart_of_isBlank blank
  have digit : c.isDigit = false := by
    by_contra inside
    simp [isWordChar, Char.isAlphanum, inside] at outside
  have others : c ≠ '/' ∧ c ≠ '\x22' ∧ c ≠ '\x60' := by
    refine ⟨?_, ?_, ?_⟩ <;> rintro rfl <;> exact absurd blank (by decide)
  simp only [lexeme, others.1, others.2.1, others.2.2, false_and, if_false, start, digit, Bool.false_eq_true]
  split <;> rfl

theorem NamesAlike.rdropWhile_eq_nil_iff {cs ds : List Char} (alike : NamesAlike cs ds) :
    cs.rdropWhile Text.isBlank = [] ↔ ds.rdropWhile Text.isBlank = [] := by
  rw [List.rdropWhile_eq_nil_iff, List.rdropWhile_eq_nil_iff]
  exact alike.all_iff (fun _ start => isBlank_of_isWordChar (isWordChar_of_isWordStart start)) (by decide)

private theorem not_isDirective_of_not_isWordStart {c : Char} (outside : isWordStart c = false) (cs : List Char) :
    ¬IsDirective (c :: cs) := by
  have first : ∀ d tail, (c :: cs).rdropWhile Text.isBlank = d :: tail → c = d := by
    intro d tail same
    rw [rdropWhile_cons] at same
    split at same
    · cases same
    · exact (List.cons.inj same).1
  rintro (⟨d, tail, same, -⟩ | same | same)
  all_goals
    cases first _ _ same
    cases outside

private theorem word_append_inj {word other rest tail : List Char} (same : word ++ rest = other ++ tail)
    (first : ∀ x ∈ word, isWordChar x = true) (second : other.all isWordChar = true)
    (ends : rest.head?.any isWordChar = false) (stops : tail.head?.any isWordChar = false) :
    word = other ∧ rest = tail := by
  have sizes : word.length = other.length := by
    rw [← length_takeWhile_append.mpr ⟨first, ends⟩, same,
      length_takeWhile_append.mpr ⟨List.all_eq_true.mp second, stops⟩]
  exact List.append_inj same sizes

/-- The word of a directive, and what has to be behind it. -/
private theorem isDirective_word_iff {word rest : List Char} (inside : ∀ x ∈ word, isWordChar x = true)
    (ends : rest.head?.any isWordChar = false) :
    IsDirective (word ++ rest) ↔
      (word = ['i', 'f'] ∧ rest.head?.any Text.isBlank = true ∧ rest.rdropWhile Text.isBlank ≠ []) ∨
      ((word = ['e', 'l', 's', 'e'] ∨ word = ['e', 'n', 'd', 'i', 'f']) ∧ rest.rdropWhile Text.isBlank = []) := by
  have front : ∀ {c tail}, rest.rdropWhile Text.isBlank = c :: tail → rest.head? = some c := by
    intro c tail same
    obtain ⟨more, whole⟩ := List.rdropWhile_prefix Text.isBlank (l := rest)
    rw [← whole, same]
    rfl
  have stops : (rest.rdropWhile Text.isBlank).head?.any isWordChar = false := by
    cases same : rest.rdropWhile Text.isBlank with
    | nil => rfl
    | cons c tail =>
      rw [front same] at ends
      exact ends
  rw [IsDirective, rdropWhile_append fun x member => isBlank_of_isWordChar (inside x member)]
  constructor
  · rintro (⟨c, tail, same, blank⟩ | same | same)
    · have outside : isWordChar c = false := by
        by_contra word
        rw [isBlank_of_isWordChar (by simpa using word)] at blank
        cases blank
      have same : word ++ rest.rdropWhile Text.isBlank = ['i', 'f'] ++ c :: tail := same
      obtain ⟨rfl, behind⟩ := word_append_inj same inside rfl stops outside
      exact .inl ⟨rfl, by rw [front behind]; exact blank, by simp [behind]⟩
    · obtain ⟨rfl, behind⟩ := word_append_inj (same.trans (List.append_nil _).symm) inside rfl stops rfl
      exact .inr ⟨.inl rfl, behind⟩
    · obtain ⟨rfl, behind⟩ := word_append_inj (same.trans (List.append_nil _).symm) inside rfl stops rfl
      exact .inr ⟨.inr rfl, behind⟩
  · rintro (⟨rfl, blank, some_char⟩ | ⟨rfl | rfl, behind⟩)
    · obtain ⟨c, tail, same⟩ := List.exists_cons_of_ne_nil some_char
      rw [front same] at blank
      exact .inl ⟨c, tail, by rw [same]; rfl, blank⟩
    · exact .inr (.inl (by rw [behind, List.append_nil]))
    · exact .inr (.inr (by rw [behind, List.append_nil]))

/-- A token that has nothing beside it on its line but a sign right before it, and blanks. -/
def Token.IsAloneBehindSign (content : List Char) (t : Token) : Prop :=
  ∃ left right, content = left ++ '#' :: (t.text.toList ++ right) ∧ t.column = Text.size left + 1 ∧
    (∀ c ∈ left, Text.isBlank c = true) ∧ ∀ c ∈ right, Text.isBlank c = true

namespace RespellsNames

variable {chosen : Token → Bool} {kind : TokenKind} {new : String} {line start column : Nat} {cs ds : List Char}
  {tokens : List Token}

/-- A sign that is always a token of its own, or a gap, is kept. -/
private theorem behindSign {c : Char} (single : ∀ rest, (lexeme c rest).2 = 0) (outside : isWordStart c = false)
    (cut : RespellsNames chosen new line start column (c :: cs) ds tokens) :
    ∃ rest later, ds = c :: rest ∧ later.Sublist tokens ∧
      (∀ t ∈ tokens, start + (column + c.utf8Size) ≤ t.span.start → t ∈ later) ∧
      RespellsNames chosen new line start (column + c.utf8Size) cs rest later := by
  have alone : ∀ {more rest known}, lexeme c (more ++ rest) = (known, more.length) → more = [] := by
    intro more rest known found
    have length := single (more ++ rest)
    rw [found] at length
    exact List.length_eq_zero_iff.mp length
  generalize whole : c :: cs = content at cut
  cases cut with
  | nothing => cases whole
  | gap _ rest =>
    cases whole
    exact ⟨_, _, rfl, .refl _, fun _ member _ => member, rest⟩
  | @kept _ _ more _ _ _ _ solid found other rest =>
    obtain ⟨rfl, same⟩ := List.cons.inj whole
    obtain rfl := alone found
    cases same
    refine ⟨_, _, rfl, List.sublist_cons_self .., ?_, rest⟩
    intro t member behind
    rcases List.mem_cons.mp member with rfl | later
    · have := c.utf8Size_pos
      simp only [cutToken] at behind
      omega
    · exact later
  | @renamed _ _ more _ _ _ _ identifier found one rest =>
    obtain ⟨rfl, same⟩ := List.cons.inj whole
    have name := isName_of_lexeme found identifier
    obtain rfl := alone found
    cases name with
    | word valid =>
      rw [valid.1] at outside
      cases outside

private theorem behindBlanks {left : List Char} (blank : ∀ c ∈ left, Text.isBlank c = true)
    (cut : RespellsNames chosen new line start column (left ++ cs) ds tokens) :
    ∃ rest later, ds = left ++ rest ∧ later.Sublist tokens ∧
      (∀ t ∈ tokens, start + (column + Text.size left) ≤ t.span.start → t ∈ later) ∧
      RespellsNames chosen new line start (column + Text.size left) cs rest later := by
  induction left generalizing column ds tokens with
  | nil => exact ⟨ds, tokens, rfl, .refl _, fun _ member _ => member, cut⟩
  | cons c left ih =>
    obtain ⟨white, others⟩ := List.forall_mem_cons.mp blank
    obtain ⟨ds, between, rfl, some, first, cut⟩ := cut.behindSign (lexeme_blank white) (isWordStart_of_isBlank white)
    obtain ⟨rest, later, rfl, fewer, next, cut⟩ := ih others cut
    rw [Nat.add_assoc, ← Text.size_cons] at cut next
    refine ⟨rest, later, rfl, fewer.trans some, ?_, cut⟩
    intro t member behind
    refine next t (first t member ?_) behind
    rw [Text.size_cons] at behind
    omega

/-- What is behind a sign in the new line makes a directive that was none before only if it is the closing word, in the
place of a chosen token that has nothing but blanks behind it. -/
private theorem closing_of_isDirective (spelling : Spelling kind new)
    (cut : RespellsNames chosen new line start column cs ds tokens) (apart : tokens.Pairwise (StayApart chosen kind))
    (text : ¬IsDirective cs) (directive : IsDirective ds) :
    new = "endif" ∧ ∃ t ∈ tokens, ∃ right, chosen t = true ∧ cs = t.text.toList ++ right ∧ t.column = column ∧
      ∀ c ∈ right, Text.isBlank c = true := by
  cases cut with
  | nothing => exact absurd directive text
  | @gap _ c _ _ _ blank rest =>
    have outside : isWordStart c = false := by
      by_contra start
      rw [isGap_of_isWordStart (by simpa using start)] at blank
      cases blank
    exact absurd directive (not_isDirective_of_not_isWordStart outside _)
  | @kept _ c more cs ds _ known solid found other rest =>
    exfalso
    by_cases start : isWordStart c = true
    · have same := rest.alike spelling
      have still := (rest.kept_iff spelling found other).mpr (List.pairwise_cons.mp apart).1
      obtain ⟨inside, ends, -⟩ := lexeme_of_isWordStart start found
      obtain ⟨-, stops, -⟩ := lexeme_of_isWordStart start still
      have word : ∀ x ∈ c :: more, isWordChar x = true := IsWord.all ⟨start, inside⟩
      rw [← List.cons_append] at directive text
      rw [isDirective_word_iff word stops] at directive
      have blank : cs.head?.any Text.isBlank = ds.head?.any Text.isBlank :=
        same.any_head (fun _ start => isBlank_of_isWordChar (isWordChar_of_isWordStart start)) (by decide)
      rw [isDirective_word_iff word ends, blank, ne_eq, same.rdropWhile_eq_nil_iff] at text
      exact text directive
    · exact absurd directive (not_isDirective_of_not_isWordStart (by simpa using start) _)
  | @renamed _ c more cs ds _ known identifier found one rest =>
    obtain ⟨first, tail, spelled⟩ := List.exists_cons_of_ne_nil spelling.name.ne_nil
    have free := spelling.free
    have name := spelling.name
    have stops := (rest.renamed_iff spelling identifier found one).mpr (List.pairwise_cons.mp apart).1
    rw [← String.ofList_toList (s := new)] at free ⊢
    rw [spelled] at directive free name ⊢
    cases name with
    | quoted => exact absurd directive (not_isDirective_of_not_isWordStart rfl _)
    | word word =>
      rw [isDirective_word_iff word.all (stops rfl)] at directive
      rcases directive with ⟨same, -⟩ | ⟨same | same, behind⟩
      · rw [same] at free
        cases free
      · rw [same] at free
        cases free
      · rw [← (rest.alike spelling).rdropWhile_eq_nil_iff, List.rdropWhile_eq_nil_iff] at behind
        refine ⟨by rw [same], _, List.mem_cons_self .., cs, one, ?_, rfl, behind⟩
        rw [cutToken, String.toList_ofList, List.cons_append]

private theorem eq_of_isAloneBehindSign (cut : RespellsNames chosen new line start 0 cs ds tokens) {t : Token}
    (member : t ∈ tokens) (one : chosen t = true) (alone : t.IsAloneBehindSign cs) :
    ∃ left right, ds = left ++ '#' :: (new.toList ++ right) ∧ (∀ c ∈ left, Text.isBlank c = true) ∧
      ∀ c ∈ right, Text.isBlank c = true := by
  obtain ⟨left, right, rfl, column, before, behind⟩ := alone
  refine ⟨left, right, ?_, before, behind⟩
  obtain ⟨_, _, _, _, -, -, -, -, span, -⟩ := cut.lexes.place_of_mem member
  have sign : Char.utf8Size '#' = 1 := rfl
  have place : t.span.start = start + (0 + Text.size left + Char.utf8Size '#') := by
    rw [span, column, sign, Nat.zero_add]
  obtain ⟨ds, tokens, rfl, -, first, cut⟩ := cut.behindBlanks before
  have member := first t member (by omega)
  obtain ⟨ds, tokens, rfl, -, next, cut⟩ := cut.behindSign (fun _ => rfl) rfl
  have member := next t member (by omega)
  congr 2
  generalize whole : t.text.toList ++ right = content at cut
  cases cut with
  | nothing => cases member
  | @gap _ c _ _ _ _ rest =>
    have := c.utf8Size_pos
    have := rest.lexes.start_le member
    omega
  | @kept _ c more _ _ _ _ _ _ other rest =>
    rcases List.mem_cons.mp member with rfl | later
    · rw [one] at other
      cases other
    · have := c.utf8Size_pos
      have := rest.lexes.start_le later
      rw [Text.size_cons] at this
      omega
  | @renamed _ c more _ _ _ _ _ _ _ rest =>
    rcases List.mem_cons.mp member with rfl | later
    · rw [cutToken, String.toList_ofList, List.cons_append] at whole
      obtain rfl : right = _ := List.append_cancel_left (List.cons.inj whole).2
      rw [← List.append_nil right] at rest
      obtain ⟨ds, _, rfl, -, -, cut⟩ := rest.behindBlanks behind
      cases cut
      rw [List.append_nil]
    · have := c.utf8Size_pos
      have := rest.lexes.start_le later
      rw [Text.size_cons] at this
      omega

/-- A line becomes no directive exactly if no sign comes to have the closing word behind it, and nothing else. -/
theorem ofLine?_eq_none_iff (spelling : Spelling kind new)
    (cut : RespellsNames chosen new line start 0 cs ds tokens) (apart : tokens.Pairwise (StayApart chosen kind))
    (text : Directive.ofLine? cs = none) :
    Directive.ofLine? ds = none ↔ (new = "endif" → ∀ t ∈ tokens, chosen t = true → ¬t.IsAloneBehindSign cs) := by
  rw [Syntax.ofLine?_eq_none_iff] at text ⊢
  constructor
  · rintro plain rfl t member one alone
    obtain ⟨left, right, rfl, before, behind⟩ := cut.eq_of_isAloneBehindSign member one alone
    refine plain ("endif".toList ++ right) ?_ ?_
    · rw [List.dropWhile_append_of_pos before]
      rfl
    · rw [isDirective_word_iff (List.all_eq_true.mp rfl) ?_, List.rdropWhile_eq_nil_iff]
      · exact .inr ⟨.inr rfl, behind⟩
      · cases right with
        | nil => rfl
        | cons c right => exact isWordChar_of_isBlank (behind c (List.mem_cons_self ..))
  · intro sign rest front directive
    have blank : ∀ c ∈ cs.takeWhile Text.isBlank, Text.isBlank c = true := fun c => List.mem_takeWhile_imp
    have whole : RespellsNames chosen new line start 0 (cs.takeWhile Text.isBlank ++ cs.dropWhile Text.isBlank) ds
        tokens := by rwa [List.takeWhile_append_dropWhile]
    obtain ⟨ds, between, rfl, some, -, cut⟩ := whole.behindBlanks blank
    have alike := cut.alike spelling
    have solid : ds.head?.any Text.isBlank = false := by
      rw [← alike.any_head (fun _ start => isBlank_of_isWordChar (isWordChar_of_isWordStart start)) (by decide)]
      have := List.head?_dropWhile_not Text.isBlank cs
      cases head : (cs.dropWhile Text.isBlank).head? with
      | none => rfl
      | some c => simpa [head] using this
    obtain rfl : ds = '#' :: rest := by
      rw [← front, List.dropWhile_append_of_pos blank]
      cases ds with
      | nil => rfl
      | cons c ds => exact (List.dropWhile_cons_of_neg (by simpa using solid)).symm
    obtain ⟨tail, same⟩ := List.head?_eq_some_iff.mp ((alike.head?_eq_some_iff rfl (by decide)).mpr rfl)
    rw [same] at cut
    obtain ⟨_, later, rest_eq, fewer, -, cut⟩ := cut.behindSign (fun _ => rfl) rfl
    obtain rfl := (List.cons.inj rest_eq).2
    have inside := fewer.trans some
    obtain ⟨closing, t, member, right, one, rfl, column, white⟩ :=
      cut.closing_of_isDirective spelling (apart.sublist inside) (text tail same) directive
    refine sign closing t (inside.subset member) one ⟨cs.takeWhile Text.isBlank, right, ?_, ?_, blank, white⟩
    · rw [← same, List.takeWhile_append_dropWhile]
    · rw [column, Nat.zero_add]
      rfl

end RespellsNames

/-- When a line keeps its tokens while the chosen ones get a new text. -/
structure KeepsTokens (chosen : Token → Bool) (kind : TokenKind) (new : String) (content : List Char)
    (tokens : List Token) : Prop where
  apart : tokens.Pairwise (StayApart chosen kind)
  sign : new = "endif" → ∀ t ∈ tokens, chosen t = true → ¬t.IsAloneBehindSign content

theorem keepsTokens_of_none {chosen : Token → Bool} {kind : TokenKind} {new : String} {content : List Char}
    {tokens : List Token} (none : ∀ t ∈ tokens, chosen t = false) : KeepsTokens chosen kind new content tokens := by
  refine ⟨List.pairwise_of_forall_mem_list ?_, fun _ t member one => absurd one (by simp [none t member])⟩
  intro u first t second
  have other : ∀ {v}, v ∈ tokens → chosen v ≠ true := fun member one => absurd one (by simp [none _ member])
  exact ⟨fun _ loses => absurd loses.1 (other second), fun _ loses => absurd loses.1 (other first),
    fun _ gets => absurd gets.1 (other second), fun gets => absurd gets.1 (other second)⟩

theorem RespellsNames.keepsTokens_iff {chosen : Token → Bool} {kind : TokenKind} {new : String} {line start : Nat}
    {cs ds : List Char} {tokens : List Token} (spelling : Spelling kind new)
    (cut : RespellsNames chosen new line start 0 cs ds tokens) (text : Directive.ofLine? cs = none) (shifted : Nat) :
    KeepsTokens chosen kind new cs tokens ↔ Directive.ofLine? ds = none ∧
      (lexLine line shifted 0 0 ds).map Token.shape = tokens.map (respell chosen kind new) := by
  rw [cut.shapes_iff spelling]
  constructor
  · rintro ⟨apart, sign⟩
    exact ⟨(cut.ofLine?_eq_none_iff spelling apart text).mpr sign, apart⟩
  · rintro ⟨still, apart⟩
    exact ⟨apart, (cut.ofLine?_eq_none_iff spelling apart text).mp still⟩

end CrossRef.Syntax
