import CrossRef.Proofs.RespelledText

/-! A whole text in which some identifiers have a new text. What stands around an identifier tells whether it can have
it: a name that changes between a word and a quoted one must not come to touch what it did not touch before. Where all
of them can, the text has the same tokens as before, whatever is defined. -/

namespace CrossRef

namespace Span

def charBefore? (span : Span) (text : String) : Option Char :=
  (slice? ⟨0, span.start⟩ text).bind (·.toList.getLast?)

def charBehind? (span : Span) (text : String) : Option Char :=
  (slice? (ofBounds span.stop text.utf8ByteSize) text).bind (·.toList.head?)

private theorem charBefore?_eq {text : String} {span : Span} {front back : List Char}
    (whole : text.toList = front ++ back)
    (start : span.start = Text.size front) : span.charBefore? text = front.getLast? := by
  have split : text.toList = [] ++ (front ++ back) := whole
  have inside : (⟨0, span.start⟩ : Span) = ⟨Text.size [], Text.size front⟩ := by
    rw [start]
    rfl
  rw [charBefore?, inside, Syntax.slice?_append split, Option.bind_some, String.toList_ofList]

private theorem charBehind?_eq {text : String} {span : Span} {front back : List Char}
    (whole : text.toList = front ++ back)
    (stop : span.stop = Text.size front) : span.charBehind? text = back.head? := by
  have split : text.toList = front ++ (back ++ []) := by rw [whole, List.append_nil]
  have inside : ofBounds span.stop text.utf8ByteSize = ⟨Text.size front, Text.size back⟩ := by
    rw [ofBounds, stop, ← Text.size_toList, whole, Text.size_append, Nat.add_sub_cancel_left]
  rw [charBehind?, inside, Syntax.slice?_append split, Option.bind_some, String.toList_ofList]

end Span

namespace Syntax

def tokensOfPlainLines : (line : Nat) → List Line → List Token
  | _, [] => []
  | line, l :: ls =>
    (if Directive.ofLine? l.content = none then lexLine line l.start 0 0 l.content else []) ++
      tokensOfPlainLines (line + 1) ls

/-- The tokens that a text could have on lines that are no directives. -/
def plainTokens (text : String) : List Token :=
  tokensOfPlainLines 0 (Line.ofText text.toList)

theorem plainTokens_sublist (text : String) : (plainTokens text).Sublist (allTokens text) := by
  suffices lines : ∀ (ls : List Line) (line : Nat), (tokensOfPlainLines line ls).Sublist (tokensOfLines line ls) from
    lines _ 0
  intro ls
  induction ls with
  | nil => exact fun _ => .slnil
  | cons l ls ih =>
    intro line
    rw [tokensOfPlainLines, tokensOfLines]
    refine List.Sublist.append ?_ (ih _)
    split
    · exact .refl _
    · exact List.nil_sublist _

theorem lex_sublist_plainTokens (text : String) (defines : List String) :
    (lex text defines).tokens.Sublist (plainTokens text) := by
  suffices lines : ∀ (pieces : List (List Char)) (line start : Nat) (regions : List Region),
      (lexLines defines line regions (Line.place start pieces)).tokens.Sublist
        (tokensOfPlainLines line (Line.place start pieces)) from lines _ 0 0 []
  intro pieces
  induction pieces with
  | nil => exact fun _ _ _ => .slnil
  | cons piece pieces ih =>
    intro line start regions
    rw [Line.place_cons, tokensOfPlainLines]
    cases found : Directive.ofLine? (Text.withoutReturn piece) with
    | some d =>
      rw [tokens_of_directive defines line regions found]
      exact (ih ..).trans (List.sublist_append_right ..)
    | none =>
      rw [tokens_of_text defines line regions found, if_pos rfl]
      refine List.Sublist.append ?_ (ih ..)
      split
      · exact .refl _
      · exact List.nil_sublist _

/-- Lines beside those in which the chosen tokens have a new text. -/
inductive RespelledNames (chosen : Token → Bool) (new : String) :
    (line start : Nat) → List (List Char) → List (List Char) → Prop where
  | nothing (line start : Nat) : RespelledNames chosen new line start [] []
  | directive {line start : Nat} {piece : List Char} {pieces changed : List (List Char)} {d : Directive}
      (found : Directive.ofLine? (Text.withoutReturn piece) = some d)
      (rest : RespelledNames chosen new (line + 1) (start + Text.size piece + 1) pieces changed) :
      RespelledNames chosen new line start (piece :: pieces) (piece :: changed)
  | plain {line start : Nat} {piece ds ending : List Char} {pieces changed : List (List Char)}
      (text : Directive.ofLine? (Text.withoutReturn piece) = none)
      (whole : piece = Text.withoutReturn piece ++ ending) (ends : Text.withoutReturn (ds ++ ending) = ds)
      (cut : RespellsNames chosen new line start 0 (Text.withoutReturn piece) ds
        (lexLine line start 0 0 (Text.withoutReturn piece)))
      (rest : RespelledNames chosen new (line + 1) (start + Text.size piece + 1) pieces changed) :
      RespelledNames chosen new line start (piece :: pieces) ((ds ++ ending) :: changed)

/-- What holds of each line that is no directive, with its number and its place. -/
def EachPlainLine (p : Nat → Nat → List Char → Prop) : (line start : Nat) → List (List Char) → Prop
  | _, _, [] => True
  | line, start, piece :: pieces =>
    (Directive.ofLine? (Text.withoutReturn piece) = none → p line start (Text.withoutReturn piece)) ∧
      EachPlainLine p (line + 1) (start + Text.size piece + 1) pieces

theorem size_flatMap_cons (piece : List Char) (before : List (List Char)) :
    Text.size ((piece :: before).flatMap (· ++ ['\n'])) =
      Text.size piece + 1 + Text.size (before.flatMap (· ++ ['\n'])) := by
  have newline : Char.utf8Size '\n' = 1 := rfl
  simp [newline, Nat.add_assoc]

theorem eachPlainLine {p : Nat → Nat → List Char → Prop} {line start : Nat} {pieces : List (List Char)}
    (holds : ∀ before piece after, pieces = before ++ piece :: after →
      Directive.ofLine? (Text.withoutReturn piece) = none →
        p (line + before.length) (start + Text.size (before.flatMap (· ++ ['\n']))) (Text.withoutReturn piece)) :
    EachPlainLine p line start pieces := by
  induction pieces generalizing line start with
  | nil => trivial
  | cons piece pieces ih =>
    refine ⟨holds [] piece pieces rfl, ih ?_⟩
    intro before other after split text
    have here := holds (piece :: before) other after (by rw [split, List.cons_append]) text
    rwa [size_flatMap_cons, List.length_cons, Nat.add_comm before.length, ← Nat.add_assoc, ← Nat.add_assoc,
      ← Nat.add_assoc] at here

variable {chosen : Token → Bool} {kind : TokenKind} {new : String}

namespace RespelledNames

variable {line start : Nat} {pieces changed : List (List Char)}

theorem length (lines : RespelledNames chosen new line start pieces changed) : changed.length = pieces.length := by
  induction lines with
  | nothing => rfl
  | directive _ _ ih => rw [List.length_cons, List.length_cons, ih]
  | plain _ _ _ _ _ ih => rw [List.length_cons, List.length_cons, ih]

theorem free (lines : RespelledNames chosen new line start pieces changed) (inside : '\n' ∉ new.toList)
    (before : ∀ piece ∈ pieces, '\n' ∉ piece) : ∀ piece ∈ changed, '\n' ∉ piece := by
  induction lines with
  | nothing => exact before
  | directive _ _ ih =>
    obtain ⟨here, later⟩ := List.forall_mem_cons.mp before
    exact List.forall_mem_cons.mpr ⟨here, ih later⟩
  | plain _ whole _ cut _ ih =>
    obtain ⟨here, later⟩ := List.forall_mem_cons.mp before
    refine List.forall_mem_cons.mpr ⟨?_, ih later⟩
    intro member
    rcases List.mem_append.mp member with old | ending
    · have old := (cut.mem_of_mem old).resolve_right inside
      exact here (whole ▸ List.mem_append_left _ old)
    · exact here (whole ▸ List.mem_append_right _ ending)

theorem replaced (lines : RespelledNames chosen new line start pieces changed) :
    Rename.ReplacedFrom start new (((tokensOfPlainLines line (Line.place start pieces)).filter chosen).map (·.span))
      (String.ofList (List.intercalate ['\n'] pieces)) (String.ofList (List.intercalate ['\n'] changed)) := by
  induction lines with
  | nothing => exact Rename.ReplacedFrom.nothing ..
  | @directive line start piece pieces changed d found rest ih =>
    have tail := replaced_tailText rest.length (by rintro rfl; rfl) ih
    have silent : tokensOfPlainLines line (Line.place start (piece :: pieces)) =
        tokensOfPlainLines (line + 1) (Line.place (start + Text.size piece + 1) pieces) := by
      rw [Line.place_cons, tokensOfPlainLines, if_neg (by simp [found]), List.nil_append]
    rw [silent, intercalate_cons, intercalate_cons]
    exact tail.behind
  | @plain line start piece ds ending pieces changed text whole ends cut rest ih =>
    have sizes : Text.size piece = Text.size (Text.withoutReturn piece) + Text.size ending := by
      rw [← Text.size_append, ← whole]
    have tail := replaced_tailText rest.length (by rintro rfl; rfl) ih
    rw [sizes, ← Nat.add_assoc] at tail
    have all := cut.replaced tail.behind
    rw [Nat.add_zero, ← List.append_assoc, ← List.append_assoc, ← whole] at all
    rw [Line.place_cons, tokensOfPlainLines, if_pos text, List.filter_append, List.map_append, intercalate_cons,
      intercalate_cons, sizes, ← Nat.add_assoc]
    exact all

/-- Where all lines keep their tokens, so does the text, whatever is defined. -/
theorem shapes (spelling : Spelling kind new) (lines : RespelledNames chosen new line start pieces changed)
    (keeps : EachPlainLine (fun line start content => KeepsTokens chosen kind new content (lexLine line start 0 0 content))
      line start pieces) (defines : List String) (regions : List Region) (shifted : Nat) :
    (lexLines defines line regions (Line.place shifted changed)).tokens.map Token.shape =
      (lexLines defines line regions (Line.place start pieces)).tokens.map (respell chosen kind new) := by
  induction lines generalizing regions shifted with
  | nothing => rfl
  | directive found _ ih =>
    rw [Line.place_cons, Line.place_cons, tokens_of_directive defines _ regions found,
      tokens_of_directive defines _ regions found]
    exact ih keeps.2 ..
  | plain text _ ends cut _ ih =>
    obtain ⟨still, same⟩ := (cut.keepsTokens_iff spelling text shifted).mp (keeps.1 text)
    rw [Line.place_cons, Line.place_cons, ends, tokens_of_text defines _ regions text,
      tokens_of_text defines _ regions still, List.map_append, List.map_append, ih keeps.2]
    split
    · rw [same]
    · rfl

end RespelledNames

private theorem exists_respelledNames (spelling : Spelling kind new) {line start : Nat} {pieces : List (List Char)}
    (identifiers : ∀ t ∈ tokensOfPlainLines line (Line.place start pieces), chosen t = true → t.isIdentifier = true) :
    ∃ changed, RespelledNames chosen new line start pieces changed := by
  induction pieces generalizing line start with
  | nil => exact ⟨[], .nothing line start⟩
  | cons piece pieces ih =>
    rw [Line.place_cons, tokensOfPlainLines] at identifiers
    obtain ⟨changed, rest⟩ := ih fun t inside => identifiers t (List.mem_append_right _ inside)
    cases found : Directive.ofLine? (Text.withoutReturn piece) with
    | some d => exact ⟨_, .directive found rest⟩
    | none =>
      have names : ∀ t ∈ lexLine line start 0 0 (Text.withoutReturn piece), chosen t = true →
          t.kind = .word ∨ t.kind = .quoted := by
        intro t inside one
        have known := identifiers t (List.mem_append_left _ (by rwa [if_pos found])) one
        simpa [Token.isIdentifier] using known
      obtain ⟨ds, cut⟩ := exists_respellsNames chosen new (lexes_lexLine line start 0 (Text.withoutReturn piece)) names
      obtain ⟨ending, whole, ends⟩ := (cut.alike spelling).withoutReturn
      exact ⟨_, .plain found whole ends cut rest⟩

theorem respelledNames_of_replaced (spelling : Spelling kind new) {text result : String}
    (identifiers : ∀ t ∈ plainTokens text, chosen t = true → t.isIdentifier = true)
    (replaced : Rename.Replaced new (((plainTokens text).filter chosen).map (·.span)) text result) :
    RespelledNames chosen new 0 0 (Text.split '\n' text.toList) (Text.split '\n' result.toList) := by
  obtain ⟨changed, lines⟩ := exists_respelledNames spelling identifiers
  have made := lines.replaced
  rw [Text.intercalate_split, String.ofList_toList] at made
  obtain rfl : String.ofList (List.intercalate ['\n'] changed) = result := made.unique replaced
  have some_line : changed ≠ [] := by
    intro empty
    have length := lines.length
    rw [empty] at length
    exact Text.split_ne_nil '\n' text.toList (List.length_eq_zero_iff.mp length.symm)
  have free := lines.free spelling.inside fun piece inside => Text.not_mem_of_mem_split inside
  rwa [String.toList_ofList, Text.split_intercalate some_line free]

/-- Where a name can be exchanged: not everywhere, if it changes between the kinds of names. -/
structure Fits (opened : Bool) (old new : TokenKind) (previous next : Option Char) : Prop where
  bare : old = .quoted → new = .word → previous.any endsName = false ∧ next.any isWordChar = false
  fenced : old = .word → new = .quoted → previous ≠ some '\x60' ∧ opened = false

/-- Whether a fence that nothing closes stands before a token on its line. -/
def openFenceBefore (text : String) (t : Token) : Bool :=
  (allTokens text).any fun u => u.line == t.line && u.span.stop ≤ t.span.start && u.text == String.ofList fence

/-- An identifier of a text that can have another text of a kind where it stands. -/
structure Token.Admits (t : Token) (text : String) (kind : TokenKind) (new : String) : Prop where
  identifier : t.isIdentifier = true
  fits : Fits (openFenceBefore text t) t.kind kind (t.span.charBefore? text) (t.span.charBehind? text)
  sign : new = "endif" → t.span.charBefore? text ≠ some '#'

private theorem tokensOfPlainLines_append (line : Nat) (before after : List Line) :
    tokensOfPlainLines line (before ++ after) =
      tokensOfPlainLines line before ++ tokensOfPlainLines (line + before.length) after := by
  induction before generalizing line with
  | nil => rfl
  | cons l before ih =>
    rw [List.cons_append, tokensOfPlainLines, tokensOfPlainLines, ih, List.append_assoc, List.length_cons,
      Nat.add_right_comm, Nat.add_assoc]

theorem mem_plainTokens {text : String} {before after : List (List Char)} {piece : List Char}
    (pieces : Text.split '\n' text.toList = before ++ piece :: after)
    (plain : Directive.ofLine? (Text.withoutReturn piece) = none) {t : Token}
    (member : t ∈ lexLine before.length (Text.size (before.flatMap (· ++ ['\n']))) 0 0 (Text.withoutReturn piece)) :
    t ∈ plainTokens text := by
  rw [plainTokens, Line.ofText, pieces, Line.place_append, tokensOfPlainLines_append, Line.place_cons,
    tokensOfPlainLines, Line.length_place, Nat.zero_add, Nat.zero_add]
  simp only [plain, if_true]
  exact List.mem_append_right _ (List.mem_append_left _ member)

private theorem chars_of_touches {text : String} {u t : Token} (first : u ∈ allTokens text)
    (second : t ∈ allTokens text) (touches : u.touches t = true) :
    t.span.charBefore? text = u.text.toList.getLast? ∧ u.span.charBehind? text = t.text.toList.head? := by
  obtain ⟨front, c, more, back, -, whole, shown, place, -⟩ := place_of_mem_allTokens first
  obtain ⟨left, d, tail, right, -, split, written, span, -⟩ := place_of_mem_allTokens second
  have meet : u.span.stop = t.span.start := by simpa [Token.touches] using touches
  constructor
  · have inner : text.toList = (front ++ c :: more) ++ back := by simp [whole]
    have start : t.span.start = Text.size (front ++ c :: more) := by rw [← meet, place, Span.stop, Text.size_append]
    rw [Span.charBefore?_eq inner start, shown, String.toList_ofList, List.getLast?_append,
      List.getLast?_eq_some_getLast (List.cons_ne_nil c more), Option.some_or]
  · have stop : u.span.stop = Text.size left := by rw [meet, span]
    rw [Span.charBehind?_eq split stop, written, String.toList_ofList, List.head?_cons, List.head?_cons]

private theorem getLast?_number {c : Char} {more cs : List Char}
    (first : isWordChar c = true ∨ (more ++ cs).head?.any Char.isDigit = true)
    (ends : numberTail (more ++ cs) = more.length) : (c :: more).getLast?.any isWordChar = true := by
  induction more generalizing c with
  | nil =>
    rcases first with inside | digit
    · simpa using inside
    · exact absurd ends (numberTail_pos digit)
  | cons d more ih =>
    rw [List.cons_append, numberTail] at ends
    split at ends
    · rename_i inside
      rw [List.getLast?_cons_cons]
      refine ih ?_ (Nat.succ.inj ends)
      simp only [Bool.or_eq_true, Bool.and_eq_true] at inside
      rcases inside with (letter | line) | ⟨-, digit⟩
      · exact .inl (by simp [isWordChar, letter])
      · exact .inl (by simp [isWordChar, line])
      · exact .inr digit
    · cases ends

private theorem getLast?_of_takesWord {text : String} {u : Token} (member : u ∈ allTokens text)
    (takes : u.takesWord = true) : u.text.toList.getLast?.any isWordChar = true := by
  obtain ⟨_, c, more, _, rest, -, shown, -, found, -⟩ := place_of_mem_allTokens member
  rw [shown, String.toList_ofList]
  have word : u.kind = .word ∨ u.kind = .keyword → (c :: more).getLast?.any isWordChar = true := by
    intro word
    have start := isWordStart_of_lexeme found word
    have whole : IsWord (c :: more) := ⟨start, (lexeme_of_isWordStart start found).1⟩
    rw [List.getLast?_eq_some_getLast (List.cons_ne_nil c more), Option.any_some]
    exact whole.all _ (List.getLast_mem _)
  rcases Token.takesWord_iff.mp takes with kind | kind | kind
  · exact word (.inl kind)
  · exact word (.inr kind)
  · rw [kind] at found
    obtain ⟨digit, ends⟩ := lexeme_number found
    exact getLast?_number (.inl (by simp [isWordChar, Char.isAlphanum, digit])) ends

private theorem keepsTokens_of_admits {text : String}
    (admits : ∀ t ∈ plainTokens text, chosen t = true → t.Admits text kind new)
    {before after : List (List Char)} {piece : List Char}
    (pieces : Text.split '\n' text.toList = before ++ piece :: after)
    (plain : Directive.ofLine? (Text.withoutReturn piece) = none) :
    KeepsTokens chosen kind new (Text.withoutReturn piece)
      (lexLine before.length (Text.size (before.flatMap (· ++ ['\n']))) 0 0 (Text.withoutReturn piece)) := by
  have cut := lexes_lexLine before.length (Text.size (before.flatMap (· ++ ['\n']))) 0 (Text.withoutReturn piece)
  have known : ∀ t ∈ lexLine before.length (Text.size (before.flatMap (· ++ ['\n']))) 0 0 (Text.withoutReturn piece),
      t ∈ plainTokens text := fun t member => mem_plainTokens pieces plain member
  have all := (plainTokens_sublist text).subset
  constructor
  · refine cut.apart.imp_of_mem ?_
    intro u t first second apart
    have near := chars_of_touches (all (known u first)) (all (known t second))
    refine ⟨?_, ?_, ?_, ?_⟩
    · intro touches loses
      obtain ⟨ends, -⟩ := (admits t (known t second) loses.1).fits.bare loses.2.1 loses.2.2
      rw [(near touches).1] at ends
      constructor
      · by_contra takes
        have last := getLast?_of_takesWord (all (known u first)) (by simpa using takes)
        obtain ⟨c, found, inside⟩ := (Option.any_eq_true _ _).mp last
        simp [found, endsName, inside] at ends
      · intro own
        obtain ⟨_, c, more, _, rest, -, shown, -, found, -⟩ := place_of_mem_allTokens (all (known u first))
        have last := (isName_of_lexeme found (.inr own.2.1)).getLast?
        rw [shown, String.toList_ofList, last] at ends
        cases ends
    · intro touches loses
      rw [← (near touches).2]
      exact ((admits u (known u first) loses.1).fits.bare loses.2.1 loses.2.2).2
    · intro touches gets same
      apply ((admits t (known t second) gets.1).fits.fenced gets.2.1 gets.2.2).1
      rw [(near touches).1, same]
      rfl
    · intro gets same
      have closed := ((admits t (known t second) gets.1).fits.fenced gets.2.1 gets.2.2).2
      obtain ⟨_, _, _, _, -, -, line, -⟩ := cut.place_of_mem first
      obtain ⟨_, _, _, _, -, -, number, -⟩ := cut.place_of_mem second
      have opened : openFenceBefore text t = true := by
        refine List.any_eq_true.mpr ⟨u, all (known u first), ?_⟩
        simp [line, number, apart, same, fence]
      rw [closed] at opened
      cases opened
  · intro closing t member one
    rintro ⟨left, right, content, column, -, -⟩
    apply (admits t (known t member) one).sign closing
    obtain ⟨_, _, _, _, -, -, -, -, span, -⟩ := cut.place_of_mem member
    obtain ⟨ending, whole, -⟩ := withoutReturn_append piece
    have joined := toList_of_split pieces
    have inner : text.toList =
        (before.flatMap (· ++ ['\n']) ++ left ++ ['#']) ++ (t.text.toList ++ (right ++ (ending ++ tailText after))) := by
      rw [joined]
      nth_rewrite 1 [whole]
      rw [content]
      simp
    have sign : Text.size ['#'] = 1 := rfl
    have start : t.span.start = Text.size (before.flatMap (· ++ ['\n']) ++ left ++ ['#']) := by
      rw [span, column, Text.size_append, Text.size_append, sign, Nat.add_assoc]
    rw [Span.charBefore?_eq inner start, List.getLast?_concat]

/-- Where all chosen tokens can have the new text, the text with it in their place has the same tokens otherwise. -/
theorem lex_respelled (spelling : Spelling kind new) {text result : String}
    (admits : ∀ t ∈ plainTokens text, chosen t = true → t.Admits text kind new)
    (replaced : Rename.Replaced new (((plainTokens text).filter chosen).map (·.span)) text result)
    (defines : List String) :
    (lex result defines).tokens.map Token.shape = (lex text defines).tokens.map (respell chosen kind new) := by
  have lines := respelledNames_of_replaced spelling (fun t member one => (admits t member one).identifier) replaced
  refine lines.shapes spelling (eachPlainLine ?_) defines [] 0
  intro before piece after pieces plain
  rw [Nat.zero_add, Nat.zero_add]
  exact keepsTokens_of_admits admits pieces plain

end Syntax

end CrossRef
