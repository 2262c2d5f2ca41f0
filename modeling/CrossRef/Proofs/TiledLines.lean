import CrossRef.Proofs.CursorTokens
import CrossRef.Proofs.NamedPlaces
import CrossRef.Proofs.RegionNesting
import CrossRef.Proofs.ScannedBytes

/-! The tokens of a text tile the lines that are read. A line is cut into tokens and gaps that follow each other, so each
of its bytes is in a token or in a gap, and gaps are single blank bytes. -/

namespace CrossRef.Syntax

/-- The bytes that count as blank: tab, newline, form feed, carriage return, space. -/
def blankBytes : List UInt8 :=
  [0x09, 0x0A, 0x0C, 0x0D, 0x20]

private theorem isGap_ofUInt8 (byte : UInt8) : isGap (Char.ofUInt8 byte) = true ↔ byte ∈ blankBytes := by
  have same : ∀ code : UInt8, Char.ofUInt8 byte = Char.ofUInt8 code ↔ byte = code := by
    intro code
    constructor
    · intro equal
      have numbers := congrArg Char.toNat equal
      rw [Text.toNat_ofUInt8, Text.toNat_ofUInt8] at numbers
      exact UInt8.toNat_inj.mp numbers
    · exact congrArg Char.ofUInt8
  have codes : ' ' = Char.ofUInt8 0x20 ∧ '\t' = Char.ofUInt8 0x09 ∧ '\n' = Char.ofUInt8 0x0A ∧
      '\x0c' = Char.ofUInt8 0x0C ∧ '\r' = Char.ofUInt8 0x0D := by decide
  obtain ⟨space, tab, newline, feed, ret⟩ := codes
  simp only [isGap, Bool.or_eq_true, beq_iff_eq, space, tab, newline, feed, ret, same, blankBytes, List.mem_cons,
    List.not_mem_nil, or_false]
  tauto

theorem contains_iff {s : Span} {offset : Nat} :
    s.contains offset = true ↔ s.start ≤ offset ∧ offset < s.stop := by
  simp [Span.contains]

theorem Lexes.covers {line start column : Nat} {cs : List Char} {tokens : List Token}
    (cut : Lexes line start column cs tokens) {k : Nat} {x : Char} (here : (Text.octets cs)[k]? = some x) :
    (∃ t ∈ tokens, t.span.contains (start + column + k) = true) ∨ isGap x = true := by
  induction cut generalizing k with
  | nothing => cases here
  | @gap column c cs tokens blank rest ih =>
    have small := small_of_isGap blank
    rw [Text.octets_cons, Text.octets_of_small small, List.singleton_append] at here
    cases k with
    | zero =>
      obtain rfl := Option.some.inj here
      exact .inr blank
    | succ k =>
      have offset : start + (column + 1) + k = start + column + (k + 1) := by omega
      have later := ih here
      rwa [Text.utf8Size_of_small small, offset] at later
  | @token column c more cs tokens kind solid found rest ih =>
    by_cases inside : k < Text.size (c :: more)
    · left
      exact ⟨_, List.mem_cons_self .., contains_iff.mpr ⟨Nat.le_add_right .., Nat.add_lt_add_left inside _⟩⟩
    · have behind : (Text.octets (c :: more)).length ≤ k := by
        rw [Text.length_octets]
        omega
      rw [← List.cons_append, Text.octets_append, List.getElem?_append_right behind, Text.length_octets] at here
      rcases ih here with ⟨t, member, contains⟩ | blank
      · left
        refine ⟨t, List.mem_cons_of_mem _ member, ?_⟩
        have offset : start + (column + Text.size (c :: more)) + (k - Text.size (c :: more)) = start + column + k := by
          omega
        rwa [offset] at contains
      · exact .inr blank

variable {text : String} {defines : List String}

theorem exists_content {l : NestedLine} (member : l ∈ nestedLines (Line.ofText text.toList)) :
    ∃ front back, text.toList = front ++ (l.content ++ back) ∧ l.start = Text.size front ∧
      ∀ x, back.head? = some x → isGap x = true := by
  obtain ⟨above, below, parts, -, -⟩ := mem_nestedLines.mp member
  have found : (Line.ofText text.toList)[above.length]? = some l.toLine := by simp [parts]
  obtain ⟨before, piece, after, pieces, count, -⟩ := exists_split_of_getElem? found
  rw [← count, getElem?_ofText pieces] at found
  rw [← Option.some.inj found]
  obtain ⟨ending, whole, ends⟩ := withoutReturn_append piece
  refine ⟨before.flatMap (· ++ ['\n']), ending ++ tailText after, ?_, rfl, ?_⟩
  · rw [toList_of_split pieces]
    nth_rewrite 1 [whole]
    rw [List.append_assoc]
  · intro x first
    rcases ends with rfl | rfl
    · cases after with
      | nil => cases first
      | cons next after =>
        cases first
        rfl
    · cases first
      rfl

private theorem eq_of_number {ls : List Line} {l other : NestedLine} (first : l ∈ nestedLines ls)
    (second : other ∈ nestedLines ls) (same : l.number = other.number) : l = other := by
  obtain ⟨above, below, parts, number, stack⟩ := mem_nestedLines.mp first
  obtain ⟨above', below', parts', number', stack'⟩ := mem_nestedLines.mp second
  obtain ⟨fronts, rest⟩ := List.append_inj (parts.symm.trans parts') (by omega)
  obtain ⟨line, -⟩ := List.cons.inj rest
  cases l
  cases other
  simp_all

theorem NestedLine.lexes (l : NestedLine) (read : l.isRead defines = true) :
    Lexes l.number l.start 0 l.content (l.tokens defines) := by
  rw [tokens, if_pos read, ← lexLine_at]
  exact lexes_lexLine ..

theorem line_of_mem_lex {t : Token} (member : t ∈ (lex text defines).tokens) :
    ∃ l ∈ nestedLines (Line.ofText text.toList), l.isRead defines = true ∧ t ∈ l.tokens defines := by
  rw [lex_eq] at member
  obtain ⟨l, listed, inside⟩ := List.mem_flatMap.mp member
  refine ⟨l, listed, ?_, inside⟩
  by_contra unread
  rw [NestedLine.tokens, if_neg unread] at inside
  cases inside

theorem exists_line {t : Token} (member : t ∈ (lex text defines).tokens) :
    ∃ l ∈ nestedLines (Line.ofText text.toList), l.isRead defines = true ∧ t.line = l.number ∧
      t.span.start = l.start + t.column ∧ t.span.stop ≤ l.span.stop := by
  obtain ⟨l, listed, read, inside⟩ := line_of_mem_lex member
  obtain ⟨_, _, _, _, -, -, number, -, place, -⟩ := (l.lexes read).place_of_mem inside
  exact ⟨l, listed, read, number, congrArg Span.start place, (l.lexes read).stop_le inside⟩

/-- Each byte of a line that is read is in a token, or it is blank. -/
theorem exists_token_or_blank {l : NestedLine} (listed : l ∈ nestedLines (Line.ofText text.toList))
    (read : l.isRead defines = true) {offset : Nat} (inside : l.span.contains offset = true) {byte : UInt8}
    (here : (Text.bytes text)[offset]? = some byte) :
    (∃ t ∈ (lex text defines).tokens, t.span.contains offset = true) ∨ byte ∈ blankBytes := by
  obtain ⟨front, back, whole, start, -⟩ := exists_content listed
  obtain ⟨low, high⟩ := contains_iff.mp inside
  obtain ⟨k, rfl⟩ := Nat.exists_eq_add_of_le low
  have short : k < (Text.octets l.content).length := by
    rw [Text.length_octets]
    exact Nat.lt_of_add_lt_add_left high
  have shown : (Text.octets text.toList)[l.start + k]? = some (Char.ofUInt8 byte) := by
    rw [Text.octets_eq, List.getElem?_map]
    exact congrArg (Option.map Char.ofUInt8) here
  rw [whole, start, Text.octets_append, ← Text.length_octets, List.getElem?_append_right (Nat.le_add_right ..),
    Nat.add_sub_cancel_left, Text.octets_append, List.getElem?_append_left short] at shown
  rcases (l.lexes read).covers shown with ⟨t, member, contains⟩ | blank
  · left
    refine ⟨t, ?_, contains⟩
    rw [lex_eq]
    exact List.mem_flatMap.mpr ⟨l, listed, member⟩
  · exact .inr ((isGap_ofUInt8 byte).mp blank)

/-- The tokens of a text tile the lines that are read. Going through the bytes of a line never takes a cut inside a
character and gives the same tokens. -/
theorem lex_tiles (text : String) (defines : List String) :
    let lines := nestedLines (Line.ofText text.toList)
    let tokens := (lex text defines).tokens
    (∀ line number start, scanLine line number start = some (lexLine number start 0 0 line.toList)) ∧
    (∀ t ∈ tokens, 0 < t.span.length ∧ t.span.slice? text = some t.text ∧
      Text.isBoundary text t.span.start = true ∧ Text.isBoundary text t.span.stop = true ∧
      ∃ l ∈ lines, l.isRead defines = true ∧ t.line = l.number ∧ t.span.start = l.start + t.column ∧
        t.span.stop ≤ l.span.stop) ∧
    (tokens.Pairwise fun t u => t.span.start < u.span.start ∧ t.span.stop ≤ u.span.start) ∧
    (∀ l ∈ lines, l.isRead defines = true → ∀ offset byte, l.span.contains offset = true →
      (Text.bytes text)[offset]? = some byte →
        (byte ∉ blankBytes → ∃! t, t ∈ tokens ∧ t.span.contains offset = true) ∧
        ((∀ t ∈ tokens, t.span.contains offset = false) → byte ∈ blankBytes)) ∧
    ∀ l ∈ lines, l.isRead defines = false → ∀ t ∈ tokens, t.line ≠ l.number := by
  intro lines tokens
  have known : ∀ t ∈ tokens, t ∈ allTokens text := fun t member => (lex_sublist text defines).subset member
  refine ⟨scanLine_eq, ?_, ?_, ?_, ?_⟩
  · intro t member
    have cut := Rename.slice?_of_mem_allTokens (known t member)
    obtain ⟨first, last⟩ := Text.isBoundary_of_between? cut
    exact ⟨filled_of_mem_allTokens (known t member), cut, first, last, exists_line member⟩
  · refine ((apart_allTokens text).sublist (lex_sublist text defines)).imp_of_mem ?_
    intro t u first _ behind
    have filled := filled_of_mem_allTokens (known t first)
    refine ⟨?_, behind⟩
    simp only [Span.stop] at behind
    omega
  · intro l listed read offset byte inside here
    have covered := exists_token_or_blank listed read inside here
    constructor
    · intro solid
      obtain ⟨t, member, contains⟩ := covered.resolve_right solid
      refine ⟨t, ⟨member, contains⟩, ?_⟩
      rintro u ⟨other, also⟩
      exact eq_of_contains (known u other) (known t member) also contains
    · intro outside
      apply covered.resolve_left
      rintro ⟨t, member, contains⟩
      exact Bool.false_ne_true ((outside t member).symm.trans contains)
  · intro l listed unread t member same
    obtain ⟨other, also, read, number, -⟩ := exists_line member
    obtain rfl := eq_of_number listed also (same.symm.trans number)
    exact Bool.false_ne_true (unread.symm.trans read)

end CrossRef.Syntax

namespace CrossRef.Sample
open Syntax

/-- A literal in which a backslash hides the first byte of a larger character only. -/
def hidingText : String :=
  "x \"\\é\" y"

/-- The second byte of that character is in the literal too, and the line is cut behind the closing quote. -/
theorem hidden_byte_in_literal :
    scanLine hidingText 0 0 = some (lexLine 0 0 0 0 hidingText.toList) ∧
      (∃! t, t ∈ (lex hidingText []).tokens ∧ t.span.contains 5 = true) ∧
      (lex hidingText []).tokens.map (·.span) = [⟨0, 1⟩, ⟨2, 5⟩, ⟨8, 1⟩] := by
  obtain ⟨scans, -, -, covers, -⟩ := lex_tiles hidingText []
  have line : (⟨⟨0, hidingText.toList⟩, 0, []⟩ : NestedLine) ∈ nestedLines (Line.ofText hidingText.toList) := by decide
  have byte : (Text.bytes hidingText)[5]? = some 0xA9 := by decide
  exact ⟨scans hidingText 0 0, (covers _ line (by decide) 5 0xA9 (by decide) byte).1 (by decide), by decide⟩

end CrossRef.Sample
