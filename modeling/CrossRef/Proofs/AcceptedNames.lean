import CrossRef.Proofs.DirectiveLines
import CrossRef.Proofs.NamedPlaces

/-! Texts that are one identifier by themselves. They are what can take the place of an identifier. The names that are
accepted for this are of that kind, except for one case: a quoted name in which a backtick stands right before the
closing fence. There the name is closed one character too early. -/

namespace CrossRef.Syntax

private theorem not_isKeyword_of_backtick {word : String} (quoted : word.toList.head? = some '\x60') :
    isKeyword word = false := by
  have others : ∀ other ∈ keywords, other.toList.head? ≠ some '\x60' := by decide
  by_contra keyword
  exact others word (by simpa [isKeyword] using keyword) quoted

/-- A text that by itself is one identifier can take the place of one. -/
theorem spelling_of_lex {new : String} {defines : List String} {t : Token} (single : (lex new defines).tokens = [t])
    (identifier : t.isIdentifier = true) (spans : t.span = ⟨0, new.utf8ByteSize⟩) : Spelling t.kind new := by
  have member : t ∈ allTokens new := (lex_sublist new defines).subset (single ▸ List.mem_singleton_self t)
  obtain rfl : t.text = new := by
    have all : new.toList = [] ++ (new.toList ++ []) := by simp
    have cut := slice?_append all
    rw [String.ofList_toList, Text.size_toList, Text.size_nil, ← spans, Rename.slice?_of_mem_allTokens member] at cut
    exact Option.some.inj cut
  obtain ⟨before, piece, after, left, c, more, right, pieces, content, shown, -, -, -, found⟩ :=
    line_of_mem_allTokens member
  have kinds : t.kind = .word ∨ t.kind = .quoted := by simpa [Token.isIdentifier] using identifier
  have text : t.text.toList = c :: more := by rw [shown, String.toList_ofList]
  refine ⟨text ▸ isName_of_lexeme found kinds, ?_, ?_⟩
  · rcases kinds with word | quoted
    · rw [word] at found
      have kind := (lexeme_of_isWordStart (lexeme_word found).1 found).2.2
      by_contra keyword
      rw [← shown, if_pos (by simpa using keyword)] at kind
      cases kind
    · rw [quoted] at found
      apply not_isKeyword_of_backtick
      rw [text, (lexeme_quoted found).1, List.head?_cons]
  · intro newline
    have inside : '\n' ∈ Text.withoutReturn piece := by
      rw [content, ← List.cons_append, ← text]
      exact List.mem_append_right _ (List.mem_append_left _ newline)
    obtain ⟨ending, whole, -⟩ := withoutReturn_append piece
    have listed : piece ∈ Text.split '\n' t.text.toList := by
      rw [pieces]
      exact List.mem_append_right _ (List.mem_cons_self ..)
    exact Text.not_mem_of_mem_split listed (whole ▸ List.mem_append_left _ inside)

namespace IsName

variable {kind : TokenKind} {text : List Char}

theorem withoutReturn (name : IsName kind text) : Text.withoutReturn text = text := by
  refine if_neg fun last => ?_
  have ends := name.getLast?
  rw [last] at ends
  cases ends

theorem ofLine? (name : IsName kind text) : Directive.ofLine? text = none := by
  have first : ∃ c more, text = c :: more ∧ Text.isBlank c = false ∧ c ≠ '#' := by
    cases name with
    | @word text valid =>
      cases text with
      | nil => cases valid
      | cons c more =>
        refine ⟨c, more, rfl, isBlank_of_isWordChar (isWordChar_of_isWordStart valid.1), ?_⟩
        rintro rfl
        cases valid.1
    | @quoted cs => exact ⟨'\x60', '\x60' :: cs, rfl, by decide, by decide⟩
  obtain ⟨c, more, rfl, solid, other⟩ := first
  refine (ofLine?_eq_none_iff _).mpr fun rest same => ?_
  rw [List.dropWhile_cons_of_neg (by simp [solid])] at same
  exact absurd (List.cons.inj same).1 other

theorem lexes (name : IsName kind text) (free : isKeyword (String.ofList text) = false) (line start : Nat) :
    Lexes line start 0 text [cutToken kind line start 0 text] := by
  cases text with
  | nil => exact absurd rfl name.ne_nil
  | cons c more =>
    have found : Syntax.lexeme c (more ++ []) = (kind, more.length) := name.lexeme free fun _ => rfl
    have cut : Lexes line start 0 (c :: (more ++ [])) [cutToken kind line start 0 (c :: more)] :=
      .token name.isGap_eq_false found (.nothing _)
    rwa [List.append_nil] at cut

theorem openLiterals (name : IsName kind text) (line start : Nat) :
    openLiterals [cutToken kind line start 0 text] = [] := by
  cases name <;> rfl

theorem isIdentifier (name : IsName kind text) (line start column : Nat) :
    (cutToken kind line start column text).isIdentifier = true := by
  cases name <;> rfl

end IsName

private theorem lex_of_spelling {kind : TokenKind} {new : String} (spelling : Spelling kind new)
    (defines : List String) :
    lex new defines = ⟨[cutToken kind 0 0 0 new.toList], []⟩ := by
  have free : isKeyword (String.ofList new.toList) = false := by
    rw [String.ofList_toList]
    exact spelling.free
  have line : Line.ofText new.toList = [⟨0, new.toList⟩] := by
    rw [Line.ofText, Text.split_of_not_mem spelling.inside, Line.place_cons, Line.place_nil, spelling.name.withoutReturn]
  have cut := (spelling.name.lexes free 0 0).lexLine_eq
  simp [lex, line, lexLines, spelling.name.ofLine?, isActive, cut, spelling.name.openLiterals]

private theorem eq_of_fenced? {name inner : List Char} (found : fenced? name = some inner) :
    name = fence ++ (inner ++ fence) := by
  unfold fenced? at found
  split at found
  · rename_i cs
    split at found
    · rename_i closed
      obtain ⟨front, rfl⟩ := List.isSuffixOf_iff_suffix.mp closed
      obtain rfl := Option.some.inj found
      simp [fence]
    · cases found
  · cases found

private theorem charsToFence?_le_of_fence {front rest : List Char} {n : Nat}
    (found : charsToFence? (front ++ (fence ++ rest)) = some n) : n ≤ front.length := by
  induction front generalizing n with
  | nil => cases found; exact Nat.le_refl 0
  | cons c front ih =>
    rw [List.cons_append, charsToFence?.eq_def] at found
    split at found
    · cases found
      exact Nat.zero_le _
    · rename_i tail _ same
      obtain ⟨-, rfl⟩ := List.cons.inj same
      obtain ⟨m, inner, rfl⟩ := Option.map_eq_some_iff.mp found
      exact Nat.succ_le_succ (ih inner)
    · cases found

/-- Behind a text that has no fence and ends with no backtick, a fence is found where it stands. -/
theorem charsToFence?_of_fence {front : List Char} (free : charsToFence? front = none)
    (ends : front.getLast? ≠ some '\x60') (rest : List Char) :
    charsToFence? (front ++ (fence ++ rest)) = some front.length := by
  induction front with
  | nil => rfl
  | cons c front ih =>
    obtain ⟨single, later⟩ := charsToFence?_cons_eq_none_iff.mp free
    have apart : ¬(c = '\x60' ∧ (front ++ (fence ++ rest)).head? = some '\x60') := by
      rintro ⟨rfl, next⟩
      cases front with
      | nil => exact ends rfl
      | cons d front => exact single ⟨rfl, next⟩
    have last : front.getLast? ≠ some '\x60' := by
      cases front with
      | nil => simp
      | cons d front => rwa [List.getLast?_cons_cons] at ends
    rw [List.cons_append, charsToFence?, ih later last]
    · rfl
    · intro tail here next
      exact apart ⟨here, by rw [next, List.head?_cons]⟩

private theorem of_isIdentifier {name : String} (valid : isIdentifier name = true) :
    (IsWord name.toList ∧ isKeyword name = false) ∨
      ∃ front last, name.toList = fence ++ (front ++ [last] ++ fence) ∧ charsToFence? (front ++ [last]) = none ∧
        '\n' ∉ front ++ [last] := by
  unfold isIdentifier at valid
  split at valid
  · rename_i inner found
    simp only [Bool.and_eq_true, Bool.not_eq_true', List.isEmpty_eq_false_iff, Option.isNone_iff_eq_none] at valid
    obtain ⟨⟨filled, free⟩, plain⟩ := valid
    refine .inr ⟨inner.dropLast, inner.getLast filled, ?_, ?_, ?_⟩ <;> rw [List.dropLast_concat_getLast filled]
    · exact eq_of_fenced? found
    · exact free
    · intro newline
      have := List.all_eq_true.mp plain _ newline
      simp at this
  · split at valid
    · cases valid
    · rename_i c cs text
      simp only [Bool.and_eq_true, Bool.not_eq_true'] at valid
      obtain ⟨⟨start, inside⟩, free⟩ := valid
      rw [text]
      exact .inl ⟨⟨start, List.all_eq_true.mp inside⟩, free⟩

/-- An accepted name can take the place of an identifier, unless it ends with three backticks. -/
theorem exists_spelling_iff {name : String} (valid : isIdentifier name = true) :
    (∃ kind, Spelling kind name) ↔ ¬['\x60', '\x60', '\x60'] <:+ name.toList := by
  rcases of_isIdentifier valid with ⟨word, free⟩ | ⟨front, last, whole, free, inside⟩
  · have outside : ∀ c ∈ name.toList, c ≠ '\x60' ∧ c ≠ '\n' := by
      intro c member
      have := word.all c member
      constructor <;> rintro rfl <;> cases this
    refine ⟨fun _ ends => ?_, fun _ => ⟨.word, .word word, free, fun newline => (outside _ newline).2 rfl⟩⟩
    exact (outside '\x60' (ends.subset (List.mem_cons_self ..))).1 rfl
  · have ending : ['\x60', '\x60', '\x60'] <:+ name.toList ↔ last = '\x60' := by
      have regroup : name.toList = fence ++ front ++ [last, '\x60', '\x60'] := by
        rw [whole]
        simp [fence]
      rw [regroup]
      constructor
      · rintro ⟨before, same⟩
        exact (List.cons.inj (List.append_inj' same rfl).2).1.symm
      · rintro rfl
        exact List.suffix_append ..
    rw [ending]
    constructor
    · rintro ⟨kind, spelling⟩ rfl
      have name := spelling.name
      rw [whole] at name
      cases name with
      | word valid => cases valid.1
      | @quoted _ k found length =>
        -- The fence that closes the name early begins with its last character.
        have found : charsToFence? (front ++ (fence ++ ['\x60'])) = some k := by simpa [fence] using found
        have early := charsToFence?_le_of_fence found
        simp [fence] at length
        omega
    · intro other
      have closed := charsToFence?_of_fence free (by simpa using other) []
      rw [List.append_nil] at closed
      refine ⟨.quoted, ?_, ?_, ?_⟩
      · rw [whole]
        exact .quoted closed (by simp [fence])
      · apply not_isKeyword_of_backtick
        rw [whole]
        rfl
      · rw [whole]
        simpa [fence] using inside

/-- An accepted name is one identifier by itself, unless it ends with three backticks. -/
theorem accepted_name_is_one_token_iff {name : String} (valid : isIdentifier name = true) (defines : List String) :
    (∃ t, lex name defines = ⟨[t], []⟩ ∧ t.isIdentifier = true ∧ t.span = ⟨0, name.utf8ByteSize⟩ ∧
      t.name = unquote name) ↔ ¬['\x60', '\x60', '\x60'] <:+ name.toList := by
  rw [← exists_spelling_iff valid]
  constructor
  · rintro ⟨t, single, identifier, spans, -⟩
    exact ⟨t.kind, spelling_of_lex (congrArg Lexed.tokens single) identifier spans⟩
  · rintro ⟨kind, spelling⟩
    refine ⟨_, lex_of_spelling spelling defines, ?_, ?_, ?_⟩
    · exact spelling.name.isIdentifier 0 0 0
    · rw [cutToken, Text.size_toList]
    · rw [cutToken, Token.name, String.ofList_toList]

end CrossRef.Syntax

namespace CrossRef.Sample
open Syntax

/-- A backtick behind the opening fence does no harm. -/
theorem backtick_in_front :
    isIdentifier "```a``" = true ∧ ∃ t, lex "```a``" ["X"] = ⟨[t], []⟩ ∧ t.isIdentifier = true ∧ t.span = ⟨0, 6⟩ ∧
      t.name = unquote "```a``" := by
  have valid : isIdentifier "```a``" = true := by decide
  exact ⟨valid, (accepted_name_is_one_token_iff valid ["X"]).mpr (by decide)⟩

/-- A backtick before the closing fence closes the name early. -/
theorem backtick_at_end :
    isIdentifier "``a```" = true ∧
      (lex "``a```" []).tokens = [⟨.quoted, ⟨0, 5⟩, 0, 0, "``a``"⟩, ⟨.punct, ⟨5, 1⟩, 0, 5, "`"⟩] := by
  decide +kernel

end CrossRef.Sample
