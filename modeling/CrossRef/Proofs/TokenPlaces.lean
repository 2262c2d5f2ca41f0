import CrossRef.Syntax.Lexer
import Mathlib.Data.List.Basic
import Mathlib.Data.List.Pairwise

/-! Where tokens stand. A line is a run of gaps and tokens that follow each other, so tokens never overlap, and
the text under the span of a token, or under its range, is the text of the token. Which lines of a text are
active depends on what is defined; the tokens of all lines are an upper bound for all of them. -/

namespace CrossRef.Syntax

def cutToken (kind : TokenKind) (line start column : Nat) (text : List Char) : Token :=
  ⟨kind, ⟨start + column, Text.size text⟩, line, column, String.ofList text⟩

/-- How a line is cut from a column on: gaps and tokens, one behind the other. -/
inductive Lexes (line start : Nat) : (column : Nat) → List Char → List Token → Prop where
  | nothing (column : Nat) : Lexes line start column [] []
  | gap {column : Nat} {c : Char} {cs : List Char} {tokens : List Token} (blank : isGap c = true)
      (rest : Lexes line start (column + c.utf8Size) cs tokens) : Lexes line start column (c :: cs) tokens
  | token {column : Nat} {c : Char} {more cs : List Char} {tokens : List Token} {kind : TokenKind}
      (solid : isGap c = false) (found : lexeme c (more ++ cs) = (kind, more.length))
      (rest : Lexes line start (column + Text.size (c :: more)) cs tokens) :
      Lexes line start column (c :: (more ++ cs)) (cutToken kind line start column (c :: more) :: tokens)

private theorem literalTail_le (cs : List Char) : (literalTail cs).1 ≤ cs.length := by
  fun_induction literalTail cs with
  | case1 => simp
  | case2 => simp
  | case3 c cs ih => simpa using ih
  | case4 cs _ => simp
  | case5 c cs _ _ _ ih => simpa using ih

private theorem numberTail_le (cs : List Char) : numberTail cs ≤ cs.length := by
  fun_induction numberTail cs with
  | case1 => simp
  | case2 c cs _ ih => simpa using ih
  | case3 => simp

theorem charsToFence?_le {cs : List Char} {n : Nat} (found : charsToFence? cs = some n) : n + 2 ≤ cs.length := by
  fun_induction charsToFence? cs generalizing n with
  | case1 cs =>
    cases found
    simp
  | case2 c cs _ ih =>
    obtain ⟨m, inner, rfl⟩ := Option.map_eq_some_iff.mp found
    have := ih inner
    simp only [List.length_cons]
    omega
  | case3 => cases found

theorem lexeme_le (c : Char) (rest : List Char) : (lexeme c rest).2 ≤ rest.length := by
  unfold lexeme
  split_ifs with comment literal fence word number dot
  · exact Nat.le_refl _
  · exact literalTail_le rest
  · cases rest with
    | nil => simp at fence
    | cons second cs =>
      cases found : charsToFence? cs with
      | none => simp [found]
      | some n =>
        have := charsToFence?_le found
        simp only [List.tail_cons, found, List.length_cons]
        omega
  · exact (List.takeWhile_sublist _).length_le
  · exact numberTail_le rest
  · exact Nat.zero_le _
  · exact Nat.zero_le _

theorem length_takeWhile_append {p : Char → Bool} {more rest : List Char} :
    ((more ++ rest).takeWhile p).length = more.length ↔ (∀ c ∈ more, p c = true) ∧ rest.head?.any p = false := by
  induction more with
  | nil => cases rest <;> simp [List.takeWhile_cons]
  | cons c more ih => by_cases inside : p c = true <;> simp [inside, ih]

theorem lexeme_of_isWordStart {c : Char} {more rest : List Char} {kind : TokenKind} (start : isWordStart c = true)
    (found : lexeme c (more ++ rest) = (kind, more.length)) :
    (∀ x ∈ more, isWordChar x = true) ∧ rest.head?.any isWordChar = false ∧
      kind = if isKeyword (String.ofList (c :: more)) then .keyword else .word := by
  have others : c ≠ '/' ∧ c ≠ '\x22' ∧ c ≠ '\x60' := by
    refine ⟨?_, ?_, ?_⟩ <;> rintro rfl <;> cases start
  simp only [lexeme, others.1, others.2.1, others.2.2, false_and, if_false, start, if_true, Prod.mk.injEq] at found
  obtain ⟨same, length⟩ := found
  rw [length, List.take_left] at same
  obtain ⟨inside, ends⟩ := length_takeWhile_append.mp length
  exact ⟨inside, ends, same.symm⟩

theorem lexeme_word {c : Char} {more rest : List Char} (found : lexeme c (more ++ rest) = (.word, more.length)) :
    isWordStart c = true ∧ (∀ x ∈ more, isWordChar x = true) ∧ rest.head?.any isWordChar = false := by
  have start : isWordStart c = true := by
    unfold lexeme at found
    split_ifs at found with comment literal fence start number dot
    · cases found
    · cases found
    · split at found <;> cases found
    · exact start
    · cases found
    · cases found
    · cases found
  obtain ⟨inside, ends, -⟩ := lexeme_of_isWordStart start found
  exact ⟨start, inside, ends⟩

theorem lexeme_quoted {c : Char} {rest : List Char} {n : Nat} (found : lexeme c rest = (.quoted, n)) :
    c = '\x60' ∧ ∃ cs k, rest = '\x60' :: cs ∧ charsToFence? cs = some k ∧ n = k + 3 := by
  unfold lexeme at found
  split_ifs at found with comment literal fence word number dot
  · cases found
  · cases found
  · refine ⟨fence.1, ?_⟩
    cases rest with
    | nil => simp at fence
    | cons second cs =>
      obtain rfl : second = '\x60' := by simpa using fence.2
      cases inner : charsToFence? cs with
      | none =>
        rw [List.tail_cons, inner] at found
        cases found
      | some k =>
        rw [List.tail_cons, inner] at found
        cases found
        exact ⟨cs, k, rfl, inner, rfl⟩
  · obtain ⟨kind, -⟩ := Prod.mk.inj found
    split at kind <;> cases kind
  · cases found
  · cases found
  · cases found

theorem quoted_text {c : Char} {more rest : List Char} (found : lexeme c (more ++ rest) = (.quoted, more.length)) :
    c = '\x60' ∧ ∃ cs k, charsToFence? cs = some k ∧ more = '\x60' :: cs.take (k + 2) := by
  obtain ⟨first, cs, k, split, fenced, length⟩ := lexeme_quoted found
  refine ⟨first, cs, k, fenced, ?_⟩
  have front := congrArg (List.take more.length) split
  rw [List.take_left, length, List.take_succ_cons] at front
  exact front

private theorem lexLine_skip (line start column : Nat) (found rest : List Char) :
    lexLine line start found.length column (found ++ rest) =
      lexLine line start 0 (column + Text.size found) rest := by
  induction found generalizing column with
  | nil => rfl
  | cons c cs ih => simp [lexLine, ih, Nat.add_assoc]

theorem Lexes.lexLine_eq {line start column : Nat} {cs : List Char} {tokens : List Token}
    (cut : Lexes line start column cs tokens) : lexLine line start 0 column cs = tokens := by
  induction cut with
  | nothing => rfl
  | gap blank _ ih => rw [lexLine, if_pos blank, ih]
  | token solid found _ ih =>
    rw [lexLine, if_neg (by simp [solid]), found]
    simp only [List.take_left, lexLine_skip]
    rw [Nat.add_assoc, ← Text.size_cons, ih]
    rfl

theorem lexes_lexLine (line start column : Nat) (cs : List Char) :
    Lexes line start column cs (lexLine line start 0 column cs) := by
  induction size : cs.length using Nat.strongRecOn generalizing column cs with
  | _ n ih =>
    cases cs with
    | nil => exact .nothing column
    | cons c cs =>
      by_cases blank : isGap c = true
      · rw [lexLine, if_pos blank]
        exact .gap blank (ih cs.length (by simp [← size]) _ cs rfl)
      · rcases found : lexeme c cs with ⟨kind, more⟩
        have fits := lexeme_le c cs
        rw [found] at fits
        obtain ⟨text, rest, rfl, rfl⟩ : ∃ text rest, cs = text ++ rest ∧ more = text.length :=
          ⟨cs.take more, cs.drop more, (List.take_append_drop ..).symm, (List.length_take_of_le fits).symm⟩
        have shorter : rest.length < n := by
          rw [List.length_cons, List.length_append] at size
          omega
        have later := ih rest.length shorter (column + Text.size (c :: text)) rest rfl
        rw [lexLine, if_neg blank, found]
        simp only [List.take_left, lexLine_skip]
        rw [Nat.add_assoc, ← Text.size_cons]
        exact .token (by simpa using blank) found later

/-- A token lies behind the column where the cutting starts, and is cut out by its text. -/
theorem Lexes.place_of_mem {line start column : Nat} {cs : List Char} {tokens : List Token} {t : Token}
    (cut : Lexes line start column cs tokens) (member : t ∈ tokens) :
    ∃ before c more after, cs = before ++ c :: (more ++ after) ∧ t.text = String.ofList (c :: more) ∧
      t.line = line ∧ t.column = column + Text.size before ∧
      t.span = ⟨start + t.column, Text.size (c :: more)⟩ ∧ lexeme c (more ++ after) = (t.kind, more.length) := by
  induction cut with
  | nothing => cases member
  | @gap column c cs tokens blank rest ih =>
    obtain ⟨before, first, more, after, rfl, text, number, place, span, found⟩ := ih member
    refine ⟨c :: before, first, more, after, rfl, text, number, ?_, span, found⟩
    simp [place, Nat.add_assoc]
  | @token column c more cs tokens kind solid found rest ih =>
    rcases List.mem_cons.mp member with rfl | later
    · exact ⟨[], c, more, cs, rfl, rfl, rfl, rfl, rfl, found⟩
    · obtain ⟨before, first, tail, after, rfl, text, number, place, span, inner⟩ := ih later
      refine ⟨c :: (more ++ before), first, tail, after, by simp, text, number, ?_, span, inner⟩
      simp only [place, Text.size_cons, Text.size_append]
      omega

theorem Lexes.stop_le {line start column : Nat} {cs : List Char} {tokens : List Token} {t : Token}
    (cut : Lexes line start column cs tokens) (member : t ∈ tokens) : t.span.stop ≤ start + column + Text.size cs := by
  obtain ⟨before, c, more, after, rfl, -, -, place, span, -⟩ := cut.place_of_mem member
  simp only [span, place, Span.stop, Text.size_append, Text.size_cons]
  omega

theorem Lexes.apart {line start column : Nat} {cs : List Char} {tokens : List Token}
    (cut : Lexes line start column cs tokens) : tokens.Pairwise fun t u => t.span.stop ≤ u.span.start := by
  induction cut with
  | nothing => exact List.Pairwise.nil
  | gap _ _ ih => exact ih
  | @token column c more cs tokens kind solid found rest ih =>
    refine List.pairwise_cons.mpr ⟨?_, ih⟩
    intro u later
    obtain ⟨before, _, _, _, -, -, -, place, span, -⟩ := rest.place_of_mem later
    simp only [span, place, Span.stop, cutToken]
    omega

def tokensOfLines : (line : Nat) → List Line → List Token
  | _, [] => []
  | line, l :: ls => lexLine line l.start 0 0 l.content ++ tokensOfLines (line + 1) ls

/-- The tokens that a text could have, whatever is defined. -/
def allTokens (text : String) : List Token :=
  tokensOfLines 0 (Line.ofText text.toList)

theorem lexLines_sublist (defines : List String) (line : Nat) (regions : List Region) (lines : List Line) :
    (lexLines defines line regions lines).tokens.Sublist (tokensOfLines line lines) := by
  fun_induction lexLines defines line regions lines with
  | case1 => exact .slnil
  | case2 _ _ _ _ _ _ ih => exact ih.trans (List.sublist_append_right ..)
  | case3 _ _ _ _ _ _ ih => exact ih.trans (List.sublist_append_right ..)
  | case4 _ _ _ _ _ ih => exact ih.trans (List.sublist_append_right ..)
  | case5 _ _ _ _ _ _ ih => exact ih.trans (List.sublist_append_right ..)
  | case6 _ _ _ _ _ ih => exact ih.trans (List.sublist_append_right ..)
  | case7 _ _ _ _ _ _ _ _ ih => exact (List.Sublist.refl _).append ih
  | case8 _ _ _ _ _ _ _ ih => exact ih.trans (List.sublist_append_right ..)

theorem lex_sublist (text : String) (defines : List String) : (lex text defines).tokens.Sublist (allTokens text) :=
  lexLines_sublist defines 0 [] _

def regionsAfter (defines : List String) (regions : List Region) : Directive → List Region
  | .opening condition => ⟨isActive regions, conditionHolds defines condition⟩ :: regions
  | .alternative =>
    match regions with
    | region :: outer => { region with chosen := !region.chosen } :: outer
    | [] => []
  | .closing => regions.tail

theorem tokens_of_directive (defines : List String) (line : Nat) (regions : List Region) {content : List Char}
    {d : Directive} (found : Directive.ofLine? content = some d) (start : Nat) (ls : List Line) :
    (lexLines defines line regions (⟨start, content⟩ :: ls)).tokens =
      (lexLines defines (line + 1) (regionsAfter defines regions d) ls).tokens := by
  cases d with
  | opening condition => cases regions <;> simp only [lexLines, found, regionsAfter]
  | alternative => cases regions <;> simp only [lexLines, found, regionsAfter]
  | closing => cases regions <;> simp only [lexLines, found, regionsAfter, List.tail_nil, List.tail_cons]

theorem tokens_of_text (defines : List String) (line : Nat) (regions : List Region) {content : List Char}
    (text : Directive.ofLine? content = none) (start : Nat) (ls : List Line) :
    (lexLines defines line regions (⟨start, content⟩ :: ls)).tokens =
      (if isActive regions then lexLine line start 0 0 content else []) ++
        (lexLines defines (line + 1) regions ls).tokens := by
  by_cases active : isActive regions = true <;> cases regions <;> simp [lexLines, text, active]

private theorem line_of_mem {line start : Nat} {pieces : List (List Char)} {t : Token}
    (member : t ∈ tokensOfLines line (Line.place start pieces)) :
    ∃ before piece after, pieces = before ++ piece :: after ∧
      t ∈ lexLine (line + before.length) (start + Text.size (before.flatMap (· ++ ['\n']))) 0 0
        (Text.withoutReturn piece) := by
  induction pieces generalizing line start with
  | nil => cases member
  | cons piece rest ih =>
    rw [Line.place_cons, tokensOfLines] at member
    rcases List.mem_append.mp member with here | later
    · exact ⟨[], piece, rest, rfl, here⟩
    · obtain ⟨before, other, after, rfl, inside⟩ := ih later
      have newline : Char.utf8Size '\n' = 1 := rfl
      have numbers : line + 1 + before.length = line + (piece :: before).length := by
        simp only [List.length_cons]
        omega
      have offsets : start + Text.size piece + 1 + Text.size (before.flatMap (· ++ ['\n'])) =
          start + Text.size ((piece :: before).flatMap (· ++ ['\n'])) := by
        simp [newline, Nat.add_assoc]
      rw [numbers, offsets] at inside
      exact ⟨piece :: before, other, after, rfl, inside⟩

/-- What follows the first piece of a text: the others, each behind a newline. -/
def tailText : List (List Char) → List Char
  | [] => []
  | piece :: rest => '\n' :: List.intercalate ['\n'] (piece :: rest)

theorem intercalate_cons (piece : List Char) (rest : List (List Char)) :
    List.intercalate ['\n'] (piece :: rest) = piece ++ tailText rest := by
  cases rest <;> simp [tailText]

private theorem intercalate_append (before : List (List Char)) (piece : List Char) (after : List (List Char)) :
    List.intercalate ['\n'] (before ++ piece :: after) = before.flatMap (· ++ ['\n']) ++ (piece ++ tailText after) := by
  induction before with
  | nil => exact intercalate_cons piece after
  | cons first rest ih =>
    rw [List.cons_append, List.intercalate_cons_of_ne_nil (by simp), ih]
    simp

theorem withoutReturn_append (piece : List Char) :
    ∃ ending, piece = Text.withoutReturn piece ++ ending ∧ (ending = [] ∨ ending = ['\r']) := by
  unfold Text.withoutReturn
  split
  · rename_i ended
    obtain ⟨front, rfl⟩ := List.getLast?_eq_some_iff.mp ended
    exact ⟨['\r'], by simp, .inr rfl⟩
  · exact ⟨[], by simp, .inl rfl⟩

theorem slice?_append {text : String} {front inside back : List Char} (whole : text.toList = front ++ (inside ++ back)) :
    Span.slice? ⟨Text.size front, Text.size inside⟩ text = some (String.ofList inside) := by
  refine Span.slice?_eq_some_iff.mpr ⟨String.ofList front, String.ofList back, ?_, ?_, ?_⟩
  · apply String.toList_inj.mp
    simp [whole]
  · rw [← Text.size_toList, String.toList_ofList]
  · rw [← Text.size_toList, String.toList_ofList]

theorem toList_of_split {text : String} {before after : List (List Char)} {piece : List Char}
    (pieces : Text.split '\n' text.toList = before ++ piece :: after) :
    text.toList = before.flatMap (· ++ ['\n']) ++ (piece ++ tailText after) := by
  rw [← intercalate_append, ← pieces, Text.intercalate_split]

theorem getElem?_ofText {text : String} {before after : List (List Char)} {piece : List Char}
    (pieces : Text.split '\n' text.toList = before ++ piece :: after) :
    (Line.ofText text.toList)[before.length]? =
      some ⟨Text.size (before.flatMap (· ++ ['\n'])), Text.withoutReturn piece⟩ := by
  simp [Line.ofText, pieces, Line.place_append]

theorem exists_split_of_getElem? {text : String} {line : Nat} {l : Line}
    (found : (Line.ofText text.toList)[line]? = some l) :
    ∃ before piece after, Text.split '\n' text.toList = before ++ piece :: after ∧ before.length = line ∧
      l.content = Text.withoutReturn piece := by
  have inside : line < (Text.split '\n' text.toList).length := by
    obtain ⟨small, -⟩ := List.getElem?_eq_some_iff.mp found
    rwa [Line.ofText, Line.length_place] at small
  have pieces := (List.take_append_drop line (Text.split '\n' text.toList)).symm
  rw [List.drop_eq_getElem_cons inside] at pieces
  have length : ((Text.split '\n' text.toList).take line).length = line :=
    List.length_take_of_le (Nat.le_of_lt inside)
  have here := getElem?_ofText pieces
  rw [length, found] at here
  exact ⟨_, _, _, pieces, length, by rw [Option.some.inj here]⟩

/-- A token is cut out of one line, which stands behind the lines before it and their newlines. -/
theorem line_of_mem_allTokens {text : String} {t : Token} (member : t ∈ allTokens text) :
    ∃ before piece after left c more right, Text.split '\n' text.toList = before ++ piece :: after ∧
      Text.withoutReturn piece = left ++ c :: (more ++ right) ∧ t.text = String.ofList (c :: more) ∧
      t.line = before.length ∧ t.column = Text.size left ∧
      t.span = ⟨Text.size (before.flatMap (· ++ ['\n'])) + t.column, Text.size (c :: more)⟩ ∧
      lexeme c (more ++ right) = (t.kind, more.length) := by
  obtain ⟨before, piece, after, pieces, inside⟩ := line_of_mem member
  simp only [Nat.zero_add] at inside
  obtain ⟨left, c, more, right, content, shown, number, column, span, found⟩ :=
    (lexes_lexLine ..).place_of_mem inside
  rw [Nat.zero_add] at column
  exact ⟨before, piece, after, left, c, more, right, pieces, content, shown, number, column, span, found⟩

/-- The span of a token cuts its text out of the whole, and its range means that span. -/
theorem place_of_mem_allTokens {text : String} {t : Token} (member : t ∈ allTokens text) :
    ∃ front c more back rest, text.toList = front ++ c :: (more ++ back) ∧ t.text = String.ofList (c :: more) ∧
      t.span = ⟨Text.size front, Text.size (c :: more)⟩ ∧ lexeme c (more ++ rest) = (t.kind, more.length) ∧
      (LineIndex.ofText text).spanOf? t.range = some t.span := by
  obtain ⟨before, piece, after, left, c, more, right, pieces, content, shown, number, column, span, found⟩ :=
    line_of_mem_allTokens member
  obtain ⟨ending, whole, -⟩ := withoutReturn_append piece
  have joined := toList_of_split pieces
  refine ⟨before.flatMap (· ++ ['\n']) ++ left, c, more, right ++ (ending ++ tailText after), right, ?_, shown, ?_, found, ?_⟩
  · rw [joined]
    nth_rewrite 1 [whole]
    rw [content]
    simp
  · rw [span, column, Text.size_append]
  · have here := LineIndex.lineSpan?_ofText pieces
    have fits : t.column + Text.size (c :: more) ≤ Text.size (Text.withoutReturn piece) := by
      rw [content, column]
      simp only [Text.size_append, Text.size_cons]
      omega
    have first : (LineIndex.ofText text).offsetOf? ⟨before.length, t.column⟩ = some t.span.start := by
      rw [LineIndex.offsetOf?, here, span]
      exact if_pos (by simp only; omega)
    have last : (LineIndex.ofText text).offsetOf? ⟨before.length, t.endColumn⟩ = some t.span.stop := by
      rw [LineIndex.offsetOf?, here, Token.endColumn, span, Span.stop]
      simp only [Option.bind_eq_bind, Option.bind_some]
      rw [if_pos fits, Nat.add_assoc]
    rw [LineIndex.spanOf?, Token.range, Range.onLine, number, first, last]
    simp [Span.ofBounds, Span.stop]

private theorem start_le_of_mem_place {start : Nat} {before : List (List Char)} {l : Line}
    (member : l ∈ Line.place start before) : l.start ≤ start + Text.size (before.flatMap (· ++ ['\n'])) := by
  induction before generalizing start with
  | nil => cases member
  | cons piece rest ih =>
    rw [Line.place_cons] at member
    rcases List.mem_cons.mp member with rfl | later
    · exact Nat.le_add_right ..
    · have newline : Char.utf8Size '\n' = 1 := rfl
      have := ih later
      simp only [List.flatMap_cons, Text.size_append, Text.size_cons, Text.size_nil, newline]
      omega

/-- The line of an offset: it starts behind the lines before it, and the next line starts behind the offset. -/
theorem lineOf?_ofText {text : String} {before after : List (List Char)} {piece : List Char}
    (pieces : Text.split '\n' text.toList = before ++ piece :: after) {offset : Nat}
    (first : Text.size (before.flatMap (· ++ ['\n'])) ≤ offset)
    (last : offset ≤ Text.size (before.flatMap (· ++ ['\n'])) + Text.size piece) :
    (LineIndex.ofText text).lineOf? offset = some before.length := by
  have joined := toList_of_split pieces
  have inside : offset ≤ text.utf8ByteSize := by
    rw [← Text.size_toList, joined, Text.size_append, Text.size_append]
    omega
  have early : ∀ span ∈ (Line.place 0 before).map Line.span, decide (span.start ≤ offset) = true := by
    intro span member
    obtain ⟨l, placed, rfl⟩ := List.mem_map.mp member
    have := start_le_of_mem_place placed
    exact decide_eq_true (show l.start ≤ offset by omega)
  have late : ((Line.place (Text.size (before.flatMap (· ++ ['\n'])) + Text.size piece + 1) after).map
      Line.span).takeWhile (fun span => decide (span.start ≤ offset)) = [] := by
    cases after with
    | nil => rfl
    | cons next rest =>
      have behind : ¬Text.size (before.flatMap (· ++ ['\n'])) + Text.size piece + 1 ≤ offset := by omega
      simp [Line.span, behind]
  rw [LineIndex.lineOf?, LineIndex.ofText, if_pos inside]
  simp only [Line.ofText, pieces, Line.place_append, Line.place_cons, List.map_append, List.map_cons, Nat.zero_add]
  rw [List.takeWhile_append_of_pos early, List.takeWhile_cons, late]
  simp [Line.span, first]

theorem lineOf?_of_mem_allTokens {text : String} {t : Token} (member : t ∈ allTokens text) {offset : Nat}
    (first : t.span.start ≤ offset) (last : offset ≤ t.span.stop) :
    (LineIndex.ofText text).lineOf? offset = some t.line := by
  obtain ⟨before, piece, after, left, c, more, right, pieces, content, -, number, column, span, -⟩ :=
    line_of_mem_allTokens member
  obtain ⟨ending, whole, -⟩ := withoutReturn_append piece
  have sizes := congrArg Text.size whole
  rw [content] at sizes
  simp only [Text.size_append, Text.size_cons] at sizes
  simp only [span, column, Span.stop, Text.size_cons] at first last
  rw [number]
  exact lineOf?_ofText pieces (by omega) (by omega)

/-- The content of a token's line shows the token's text at its columns. -/
theorem shown_on_line {text : String} {t : Token} (member : t ∈ allTokens text) :
    ∃ span content, (LineIndex.ofText text).lineSpan? t.line = some span ∧ span.slice? text = some content ∧
      (Span.ofBounds t.column t.endColumn).slice? content = some t.text := by
  obtain ⟨before, piece, after, left, c, more, right, pieces, content, shown, number, column, span, -⟩ :=
    line_of_mem_allTokens member
  obtain ⟨ending, whole, -⟩ := withoutReturn_append piece
  have joined := toList_of_split pieces
  have inner : text.toList = before.flatMap (· ++ ['\n']) ++ (Text.withoutReturn piece ++ (ending ++ tailText after)) := by
    rw [joined]
    nth_rewrite 1 [whole]
    simp
  have cut : Span.ofBounds t.column t.endColumn = ⟨Text.size left, Text.size (c :: more)⟩ := by
    simp only [Span.ofBounds, Token.endColumn, span, column, Nat.add_sub_cancel_left]
  refine ⟨_, String.ofList (Text.withoutReturn piece), number ▸ LineIndex.lineSpan?_ofText pieces,
    slice?_append inner, ?_⟩
  rw [cut, shown]
  apply slice?_append
  rw [String.toList_ofList, content, List.cons_append]

theorem apart_allTokens (text : String) : (allTokens text).Pairwise fun t u => t.span.stop ≤ u.span.start := by
  suffices apart : ∀ (pieces : List (List Char)) (line start : Nat),
      (tokensOfLines line (Line.place start pieces)).Pairwise fun t u => t.span.stop ≤ u.span.start from
    apart _ 0 0
  intro pieces
  induction pieces with
  | nil => exact fun _ _ => List.Pairwise.nil
  | cons piece rest ih =>
    intro line start
    rw [Line.place_cons, tokensOfLines]
    refine List.pairwise_append.mpr ⟨(lexes_lexLine ..).apart, ih _ _, ?_⟩
    intro t first u later
    have stop := (lexes_lexLine ..).stop_le first
    obtain ⟨before, other, after, -, inside⟩ := line_of_mem later
    obtain ⟨_, _, _, _, -, -, -, -, place, -⟩ := (lexes_lexLine ..).place_of_mem inside
    obtain ⟨ending, whole, -⟩ := withoutReturn_append piece
    have sizes := congrArg Text.size whole
    rw [Text.size_append] at sizes
    simp only [Nat.add_zero] at stop
    simp only [place]
    omega

theorem filled_of_mem_allTokens {text : String} {t : Token} (member : t ∈ allTokens text) : 0 < t.span.length := by
  obtain ⟨_, c, more, _, _, -, -, span, -⟩ := place_of_mem_allTokens member
  have := c.utf8Size_pos
  simp only [span, Text.size_cons]
  omega

theorem nodup_allTokens (text : String) : (allTokens text).Nodup := by
  refine (apart_allTokens text).imp_of_mem ?_
  rintro t u member - behind rfl
  have := filled_of_mem_allTokens member
  simp only [Span.stop] at behind
  omega

theorem disjoint_of_ne {text : String} {t u : Token} (first : t ∈ allTokens text) (second : u ∈ allTokens text)
    (different : t ≠ u) : t.span.stop ≤ u.span.start ∨ u.span.stop ≤ t.span.start := by
  have : Std.Symm fun t u : Token => t.span.stop ≤ u.span.start ∨ u.span.stop ≤ t.span.start := ⟨fun _ _ => Or.symm⟩
  have either := (apart_allTokens text).imp fun {t u} behind =>
    (Or.inl behind : t.span.stop ≤ u.span.start ∨ u.span.stop ≤ t.span.start)
  exact either.forall first second different

theorem eq_of_span {text : String} {t u : Token} (first : t ∈ allTokens text) (second : u ∈ allTokens text)
    (same : t.span = u.span) : t = u := by
  have filled := filled_of_mem_allTokens first
  by_contra different
  have apart := disjoint_of_ne first second different
  simp only [← same, Span.stop] at apart
  omega

theorem eq_of_endColumn {text : String} {t u : Token} (first : t ∈ allTokens text) (second : u ∈ allTokens text)
    (line : t.line = u.line) (column : t.endColumn = u.endColumn) : t = u := by
  obtain ⟨before, _, _, _, _, _, _, pieces, -, -, number, -, span, -⟩ := line_of_mem_allTokens first
  obtain ⟨above, _, _, _, _, _, _, same, -, -, count, -, place, -⟩ := line_of_mem_allTokens second
  have lines : before = above := (List.append_inj (pieces.symm.trans same) (by omega)).1
  have filled := filled_of_mem_allTokens first
  have other := filled_of_mem_allTokens second
  by_contra different
  have apart := disjoint_of_ne first second different
  simp only [Token.endColumn, Span.stop, span, place, lines] at column filled other apart
  omega

theorem eq_of_range {text : String} {t u : Token} (first : t ∈ allTokens text) (second : u ∈ allTokens text)
    (same : t.range = u.range) : t = u := by
  obtain ⟨_, _, _, _, _, -, -, -, -, here⟩ := place_of_mem_allTokens first
  obtain ⟨_, _, _, _, _, -, -, -, -, there⟩ := place_of_mem_allTokens second
  exact eq_of_span first second (Option.some.inj (here.symm.trans (same ▸ there)))

end CrossRef.Syntax
