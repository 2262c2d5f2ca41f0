import CrossRef.Proofs.Respelling

/-! A whole text in which some words are spelled in another way. Line by line, directives and inactive lines stay
as they are and the others are respelled, so that the same lines are active as before. -/

namespace CrossRef.Syntax

/-- The tokens of a text beside those of the text in which the chosen ones are respelled. -/
structure Paired (chosen : Token → Bool) (new : String) (before after : List Token) (pairs : List (Token × Token)) :
    Prop where
  before : pairs.map (·.1) = before
  after : pairs.map (·.2) = after
  respelled : ∀ x ∈ pairs, Respelled chosen new x.1 x.2
  inStep : InStep pairs

theorem Paired.eq_zip {chosen : Token → Bool} {new : String} {before after : List Token} {pairs : List (Token × Token)}
    (paired : Paired chosen new before after pairs) : pairs = before.zip after := by
  rw [← paired.before, ← paired.after, List.zip_map', List.map_id']

theorem NamesAlike.withoutReturn {piece ds : List Char} (alike : NamesAlike (Text.withoutReturn piece) ds) :
    ∃ ending, piece = Text.withoutReturn piece ++ ending ∧ Text.withoutReturn (ds ++ ending) = ds := by
  by_cases ended : piece.getLast? = some '\r'
  · obtain ⟨front, rfl⟩ := List.getLast?_eq_some_iff.mp ended
    exact ⟨['\r'], by simp [Text.withoutReturn], by simp [Text.withoutReturn]⟩
  · have whole : Text.withoutReturn piece = piece := if_neg ended
    rw [whole] at alike
    have open_ : ds.getLast? ≠ some '\r' := fun last => ended (alike.getLast?_of_getLast? rfl last)
    exact ⟨[], by simp [whole], by rw [List.append_nil, Text.withoutReturn, if_neg open_]⟩

variable {chosen : Token → Bool} {new : String}

structure RespelledLines (chosen : Token → Bool) (new : String) (defines : List String) (line : Nat)
    (regions : List Region) (start shifted : Nat) (pieces changed : List (List Char)) (pairs : List (Token × Token)) :
    Prop where
  length : changed.length = pieces.length
  free : ∀ piece ∈ changed, '\n' ∉ piece
  paired : Paired chosen new (lexLines defines line regions (Line.place start pieces)).tokens
    (lexLines defines line regions (Line.place shifted changed)).tokens pairs
  behind : ∀ x ∈ pairs, start ≤ x.1.span.start ∧ shifted ≤ x.2.span.start
  replaced : Rename.ReplacedFrom start new
    (((lexLines defines line regions (Line.place start pieces)).tokens.filter chosen).map (·.span))
    (String.ofList (List.intercalate ['\n'] pieces)) (String.ofList (List.intercalate ['\n'] changed))

theorem replaced_tailText {start : Nat} {spans : List Span} {pieces changed : List (List Char)}
    (length : changed.length = pieces.length) (nothing : pieces = [] → spans = [])
    (rest : Rename.ReplacedFrom (start + 1) new spans (String.ofList (List.intercalate ['\n'] pieces))
      (String.ofList (List.intercalate ['\n'] changed))) :
    Rename.ReplacedFrom start new spans (String.ofList (tailText pieces)) (String.ofList (tailText changed)) := by
  cases pieces with
  | nil =>
    obtain rfl := List.length_eq_zero_iff.mp length
    rw [nothing rfl]
    exact Rename.ReplacedFrom.nothing ..
  | cons piece pieces =>
    obtain ⟨other, changed, rfl⟩ := List.exists_cons_of_length_eq_add_one length
    have newline : Text.size ['\n'] = 1 := rfl
    exact Rename.ReplacedFrom.behind (newline ▸ rest)

private theorem RespelledLines.tail {defines : List String} {line : Nat} {regions : List Region} {start shifted : Nat}
    {pieces changed : List (List Char)} {pairs : List (Token × Token)}
    (rest : RespelledLines chosen new defines line regions (start + 1) shifted pieces changed pairs) :
    Rename.ReplacedFrom start new
      (((lexLines defines line regions (Line.place (start + 1) pieces)).tokens.filter chosen).map (·.span))
      (String.ofList (tailText pieces)) (String.ofList (tailText changed)) := by
  refine replaced_tailText rest.length ?_ rest.replaced
  rintro rfl
  rfl

private theorem RespelledLines.keep {defines : List String} {line : Nat} {regions later : List Region}
    {start shifted : Nat} {piece : List Char} {pieces changed : List (List Char)} {pairs : List (Token × Token)}
    (silent : ∀ start ls, (lexLines defines line regions (⟨start, Text.withoutReturn piece⟩ :: ls)).tokens =
      (lexLines defines (line + 1) later ls).tokens) (free : '\n' ∉ piece)
    (rest : RespelledLines chosen new defines (line + 1) later (start + Text.size piece + 1)
      (shifted + Text.size piece + 1) pieces changed pairs) :
    RespelledLines chosen new defines line regions start shifted (piece :: pieces) (piece :: changed) pairs := by
  refine ⟨by simp [rest.length], ?_, ?_, ?_, ?_⟩
  · intro other member
    rcases List.mem_cons.mp member with rfl | inside
    · exact free
    · exact rest.free other inside
  · rw [Line.place_cons, Line.place_cons, silent, silent]
    exact rest.paired
  · intro x member
    have := rest.behind x member
    omega
  · rw [Line.place_cons, silent, intercalate_cons, intercalate_cons]
    exact rest.tail.behind

private theorem RespelledLines.respell {defines : List String} {line : Nat} {regions : List Region}
    {start shifted : Nat} {piece ds : List Char} {pieces changed : List (List Char)}
    {first pairs : List (Token × Token)} (plain : PlainName new) (other : new ≠ "endif")
    (active : isActive regions = true) (text : Directive.ofLine? (Text.withoutReturn piece) = none)
    (free : '\n' ∉ piece) {ending : List Char} (whole : piece = Text.withoutReturn piece ++ ending)
    (ends : Text.withoutReturn (ds ++ ending) = ds)
    (cut : Respells chosen new line start shifted 0 0 (Text.withoutReturn piece) ds first)
    (rest : RespelledLines chosen new defines (line + 1) regions (start + Text.size piece + 1)
      (shifted + Text.size (ds ++ ending) + 1) pieces changed pairs) :
    RespelledLines chosen new defines line regions start shifted (piece :: pieces) ((ds ++ ending) :: changed)
      (first ++ pairs) := by
  have before := tokens_of_text defines line regions text start
  have still := (cut.names.ofLine?_eq_none_iff plain.spelling cut.stayApart text).mpr fun same => absurd same other
  have after := tokens_of_text defines line regions still shifted
  rw [if_pos active, cut.lexes_old.lexLine_eq] at before
  rw [if_pos active, (cut.lexes_new plain).lexLine_eq] at after
  have sizes : Text.size piece = Text.size (Text.withoutReturn piece) + Text.size ending := by
    rw [← Text.size_append, ← whole]
  have newline : '\n' ∉ ds ++ ending := by
    intro member
    rcases List.mem_append.mp member with inside | inside
    · have old := (cut.names.mem_of_mem inside).resolve_right plain.spelling.inside
      exact free (whole ▸ List.mem_append_left _ old)
    · exact free (whole ▸ List.mem_append_right _ inside)
  have cross : ∀ x ∈ first, ∀ y ∈ pairs, Follows x.1.span.stop x.2.span.stop y := by
    intro x early y late
    have left := cut.lexes_old.stop_le (List.mem_map_of_mem early)
    have right := (cut.lexes_new plain).stop_le (List.mem_map_of_mem early)
    have far := rest.behind y late
    rw [Text.size_append] at far
    exact ⟨by omega, by omega, by omega⟩
  refine ⟨by simp [rest.length], ?_, ⟨?_, ?_, ?_, ?_⟩, ?_, ?_⟩
  · intro other member
    rcases List.mem_cons.mp member with rfl | inside
    · exact newline
    · exact rest.free other inside
  · rw [Line.place_cons, before, List.map_append, rest.paired.before]
  · rw [Line.place_cons, ends, after, List.map_append, rest.paired.after]
  · intro x member
    rcases List.mem_append.mp member with early | late
    · exact cut.respelled plain Iff.rfl x early
    · exact rest.paired.respelled x late
  · exact List.pairwise_append.mpr ⟨cut.inStep plain, rest.paired.inStep, cross⟩
  · intro x member
    rcases List.mem_append.mp member with early | late
    · obtain ⟨left, right, -⟩ := cut.follows plain x early
      omega
    · have := rest.behind x late
      omega
  · have tail := rest.tail
    rw [sizes, ← Nat.add_assoc] at tail
    have all := cut.replaced tail.behind
    rw [Nat.add_zero, ← List.append_assoc, ← List.append_assoc, ← whole] at all
    rw [Line.place_cons, before, List.filter_append, List.map_append, intercalate_cons, intercalate_cons, sizes,
      ← Nat.add_assoc]
    exact all

private theorem exists_respelled_lines (plain : PlainName new) (other : new ≠ "endif") (defines : List String)
    {pieces : List (List Char)} (free : ∀ piece ∈ pieces, '\n' ∉ piece) (line : Nat) (regions : List Region)
    (start shifted : Nat) (words : ∀ t ∈ (lexLines defines line regions (Line.place start pieces)).tokens,
      chosen t = true → t.kind = .word) :
    ∃ changed pairs, RespelledLines chosen new defines line regions start shifted pieces changed pairs := by
  induction pieces generalizing line regions start shifted with
  | nil =>
    refine ⟨[], [], rfl, by simp, ⟨rfl, rfl, by simp, List.Pairwise.nil⟩, by simp, ?_⟩
    exact Rename.ReplacedFrom.nothing ..
  | cons piece pieces ih =>
    have here := free piece (List.mem_cons_self ..)
    have later := ih fun other inside => free other (List.mem_cons_of_mem _ inside)
    rw [Line.place_cons] at words
    cases found : Directive.ofLine? (Text.withoutReturn piece) with
    | some d =>
      have silent := tokens_of_directive defines line regions found
      rw [silent] at words
      obtain ⟨changed, pairs, rest⟩ := later _ _ _ (shifted + Text.size piece + 1) words
      exact ⟨_, _, rest.keep silent here⟩
    | none =>
      have shown := tokens_of_text defines line regions found
      by_cases active : isActive regions = true
      · rw [shown, if_pos active] at words
        obtain ⟨ds, first, cut, -⟩ := exists_respells chosen new line start shifted
          (lexes_lexLine line start 0 (Text.withoutReturn piece))
          (fun t inside => words t (List.mem_append_left _ inside)) 0
        obtain ⟨ending, whole, ends⟩ := (cut.names.alike plain.spelling).withoutReturn
        obtain ⟨changed, pairs, rest⟩ := later (line + 1) regions _ (shifted + Text.size (ds ++ ending) + 1)
          fun t inside => words t (List.mem_append_right _ inside)
        exact ⟨_, _, rest.respell plain other active found here whole ends cut⟩
      · have silent : ∀ start ls, (lexLines defines line regions (⟨start, Text.withoutReturn piece⟩ :: ls)).tokens =
            (lexLines defines (line + 1) regions ls).tokens := by
          intro start ls
          rw [shown, if_neg active, List.nil_append]
        rw [silent] at words
        obtain ⟨changed, pairs, rest⟩ := later _ _ _ (shifted + Text.size piece + 1) words
        exact ⟨_, _, rest.keep silent here⟩

/-- Replacing the chosen words of a text by a new one leaves the same tokens, the chosen ones respelled. -/
theorem exists_paired (plain : PlainName new) (other : new ≠ "endif") (text : String) (defines : List String)
    (words : ∀ t ∈ (lex text defines).tokens, chosen t = true → t.kind = .word) {result : String}
    (replaced : Rename.Replaced new (((lex text defines).tokens.filter chosen).map (·.span)) text result) :
    ∃ pairs, Paired chosen new (lex text defines).tokens (lex result defines).tokens pairs := by
  obtain ⟨changed, pairs, lines⟩ := exists_respelled_lines plain other defines
    (fun piece inside => Text.not_mem_of_mem_split inside) 0 [] 0 0 words
  have made := lines.replaced
  rw [Text.intercalate_split, String.ofList_toList] at made
  have some_line : changed ≠ [] := by
    intro empty
    have length := lines.length
    rw [empty] at length
    exact Text.split_ne_nil '\n' text.toList (List.length_eq_zero_iff.mp length.symm)
  obtain rfl : String.ofList (List.intercalate ['\n'] changed) = result := made.unique replaced
  refine ⟨pairs, ?_⟩
  rw [lex, lex, Line.ofText, Line.ofText, String.toList_ofList, Text.split_intercalate some_line lines.free]
  exact lines.paired

end CrossRef.Syntax
