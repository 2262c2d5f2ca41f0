import CrossRef.Proofs.NamedPlaces
import CrossRef.Proofs.ScannedBytes

/-! Narrowing brings every span to a normal form. The spans that it leaves alone are those that lie inside the text, on
character boundaries, and cover no point outside of quotes. What it makes of a span is such a span, so doing it again
changes nothing. The span of an identifier is one too: the lexer ends a quoted name at the first fence behind the one
that opens it, and no point in between is outside of quotes. Adding words and going through bytes gives the same span: the
part of it that is inside the text can always be cut out, and no byte of a larger character is a backtick or a point. -/

namespace CrossRef.Syntax

/-- The end of the last point outside of quotes, counted from where the search begins. The search goes through bytes
and keeps the last end that it has seen. -/
def scanPoint : (quoted : Bool) → (last : Option Nat) → (offset : Nat) → List Char → Option Nat
  | _, last, _, [] => last
  | quoted, last, offset, '\x60' :: '\x60' :: rest => scanPoint (!quoted) last (offset + 2) rest
  | quoted, last, offset, byte :: rest =>
    scanPoint quoted (if byte = '.' ∧ !quoted then some (offset + 1) else last) (offset + 1) rest

/-- Narrowing that adds words and goes through bytes; `none` if this takes a cut outside the text or inside a
character. -/
def narrowBytes? (text : String) (start length : UInt64) : Option Span := do
  let stop := Text.boundaryBefore text (start + length).toNat
  let first := Text.boundaryBefore text (min start.toNat stop)
  let inside ← (Span.ofBounds first stop).slice? text
  let past := scanPoint false none 0 ((Text.bytes inside).map Char.ofUInt8)
  return .ofBounds (first + past.getD 0) stop

theorem scanPoint_cons {byte : Char} {rest : List Char} (single : ¬(byte = '\x60' ∧ rest.head? = some '\x60'))
    (quoted : Bool) (last : Option Nat) (offset : Nat) : scanPoint quoted last offset (byte :: rest) =
      scanPoint quoted (if byte = '.' ∧ !quoted then some (offset + 1) else last) (offset + 1) rest := by
  rw [scanPoint]
  rintro more rfl rfl
  exact single ⟨rfl, rfl⟩

theorem scanPoint_append {front : List Char} (inert : ∀ x ∈ front, x ≠ '\x60' ∧ x ≠ '.') (quoted : Bool)
    (last : Option Nat) (offset : Nat) (rest : List Char) :
    scanPoint quoted last offset (front ++ rest) = scanPoint quoted last (offset + front.length) rest := by
  induction front generalizing offset with
  | nil => rfl
  | cons x front ih =>
    obtain ⟨tick, point⟩ := inert x (List.mem_cons_self ..)
    rw [List.cons_append, scanPoint_cons fun fence => tick fence.1, if_neg fun dot => point dot.1,
      ih fun y member => inert y (List.mem_cons_of_mem _ member), List.length_cons, Nat.add_assoc, Nat.add_comm 1]

private theorem scanPoint_octets (quoted : Bool) (last : Option Nat) (offset : Nat) (cs : List Char) :
    scanPoint quoted last offset (Text.octets cs) = ((pastLastDot? quoted cs).map (offset + ·)).or last := by
  fun_induction fenceCount cs generalizing quoted last offset with
  | case1 cs ih =>
    have fence : Text.octets ('\x60' :: '\x60' :: cs) = '\x60' :: '\x60' :: Text.octets cs :=
      Text.octets_append ['\x60', '\x60'] cs
    rw [fence, scanPoint, ih, pastLastDot?, Option.map_map]
    congr 2
    funext n
    simp only [Function.comp_apply]
    omega
  | case2 c cs single ih =>
    have apart := not_fence single
    obtain ⟨first, more, split, length, whole, parts⟩ := Text.exists_octets c
    rw [Text.octets_cons, split, pastLastDot?_cons apart]
    rcases whole with ⟨-, rfl, rfl⟩ | ⟨large, start⟩
    · rw [← Text.head?_octets (by decide)] at apart
      rw [List.singleton_append, scanPoint_cons apart, ih, ← length]
      by_cases point : first = '.' ∧ !quoted
      · rw [if_pos point, if_pos point]
        cases pastLastDot? quoted cs <;> simp [Nat.add_assoc]
      · rw [if_neg point, if_neg point]
        cases pastLastDot? quoted cs <;> simp [Nat.add_assoc]
    · -- All bytes of a larger character are large.
      have solid : ∀ x : Char, 128 ≤ x.toNat → x ≠ '\x60' ∧ x ≠ '.' := by
        intro x big
        constructor <;> rintro rfl <;> exact absurd big (by decide)
      have inert : ∀ x ∈ first :: more, x ≠ '\x60' ∧ x ≠ '.' := by
        intro x member
        rcases List.mem_cons.mp member with rfl | later
        · exact solid x start
        · exact solid x (parts x later)
      rw [scanPoint_append inert, ih, if_neg fun dot => (solid c large).2 dot.1, Option.or_none, Option.map_map,
        List.length_cons, length]
      congr 2
      funext n
      exact Nat.add_assoc ..
  | case3 => rfl

private theorem narrowBytes?_eq {text : String} (short : text.utf8ByteSize < UInt64.size) (start length : UInt64) :
    narrowBytes? text start length = some (narrow text ⟨start.toNat, length.toNat⟩) := by
  have sum : (start + length).toNat = Span.stopIn ⟨start.toNat, length.toNat⟩ text.utf8ByteSize := by
    rw [Span.stopIn_eq_word _ short, Nat.toUInt64_eq, Nat.toUInt64_eq, UInt64.ofNat_toNat, UInt64.ofNat_toNat]
  obtain ⟨path, kept, cut, -⟩ := narrow_splits text ⟨start.toNat, length.toNat⟩
  have searched := scanPoint_octets false none 0 (path ++ kept).toList
  simp only [Nat.zero_add, Option.or_none, Option.map_id', Text.octets_eq] at searched
  rw [clamped, ← sum] at cut
  rw [narrow, ← sum, narrowBytes?, cut, Option.bind_eq_bind, Option.bind_some, searched]
  rfl

/-- The normal form: a span that covers a text without a qualifying path. -/
theorem narrow_eq_self_iff {text : String} {span : Span} :
    narrow text span = span ↔ ∃ shown, span.slice? text = some shown ∧ Unqualified shown.toList := by
  constructor
  · intro same
    obtain ⟨-, kept, -, cut, -, unqualified⟩ := narrow_splits text span
    exact ⟨kept, same ▸ cut, unqualified⟩
  · rintro ⟨shown, cut, unqualified⟩
    exact Rename.narrow_eq_self cut (pastLastDot?_eq_none_iff.mpr unqualified)

/-- Whatever a span is, narrowing gives a span inside the text, on character boundaries: of the part of the span that
lies there, all that is behind the longest qualifying path. No point outside of quotes is left in it. Narrowing it again
changes nothing, and narrowing the span of an identifier changes nothing, whatever is defined. The same span is found by
adding words, where an end from 2^64 on loses its carry, and going through bytes, and no cut on the way is impossible. -/
theorem narrow_normalises (text : String) (span : Span) :
    (narrow text span).stop ≤ text.utf8ByteSize ∧
    Text.isBoundary text (narrow text span).start = true ∧ Text.isBoundary text (narrow text span).stop = true ∧
    (∃ path kept, (clamped text span).slice? text = some (path ++ kept) ∧ (narrow text span).slice? text = some kept ∧
      IsQualifying path.toList ∧ Unqualified kept.toList) ∧
    narrow text (narrow text span) = narrow text span ∧
    (∀ defines, ∀ t ∈ (lex text defines).tokens, t.isIdentifier = true → narrow text t.span = t.span) ∧
    ∀ start length : UInt64, span = ⟨start.toNat, length.toNat⟩ → text.utf8ByteSize < UInt64.size →
      narrowBytes? text start length = some (narrow text span) := by
  obtain ⟨path, kept, whole, cut, qualifying, unqualified⟩ := narrow_splits text span
  obtain ⟨first, last⟩ := Text.isBoundary_of_between? cut
  refine ⟨Text.le_utf8ByteSize_of_isBoundary last, first, last, ?_, ?_, ?_, ?_⟩
  · exact ⟨path, kept, whole, cut, qualifying, unqualified⟩
  · exact narrow_eq_self_iff.mpr ⟨kept, cut, unqualified⟩
  · intro defines t member named
    exact Rename.narrow_of_mem_allTokens ((lex_sublist text defines).subset member) named
  · rintro start length rfl short
    exact narrowBytes?_eq short start length

/-- The end of this span is 2^64 + 1. -/
example : narrow "ab" ⟨UInt64.size - 1, 2⟩ = ⟨1, 0⟩ := by decide

end CrossRef.Syntax

namespace CrossRef.Sample
open Syntax

/-- A quoted name with a point and a backtick inside, between points outside of quotes, and a fence that nothing closes. -/
def fencedText : String := "é.``a.`b``.x ``y"

def fencedName : Token := ⟨.quoted, ⟨3, 8⟩, 0, 3, "``a.`b``"⟩

/-- A span from inside a character to the end of the name is narrowed to the name, one that runs past the text to what is
behind the point that follows the name, and one whose end loses its carry to nothing. -/
theorem fenced_name_kept :
    fencedName ∈ (lex fencedText []).tokens ∧ fencedName.isIdentifier = true ∧ fencedText.utf8ByteSize < UInt64.size ∧
      narrow fencedText ⟨1, 10⟩ = fencedName.span ∧ narrow fencedText fencedName.span = fencedName.span ∧
      narrow fencedText ⟨1, 40⟩ = ⟨12, 5⟩ ∧ narrow fencedText ⟨12, 5⟩ = ⟨12, 5⟩ ∧
      narrowBytes? fencedText 1 40 = some ⟨12, 5⟩ ∧
      narrowBytes? fencedText 18446744073709551615 4 = some ⟨3, 0⟩ := by
  have member : fencedName ∈ (lex fencedText []).tokens := by decide
  have short : fencedText.utf8ByteSize < UInt64.size := by decide
  have behind : narrow fencedText ⟨1, 40⟩ = ⟨12, 5⟩ := by decide
  have carried : narrow fencedText ⟨UInt64.size - 1, 4⟩ = ⟨3, 0⟩ := by decide
  obtain ⟨-, -, -, -, again, kept, scanned⟩ := narrow_normalises fencedText ⟨1, 40⟩
  obtain ⟨-, -, -, -, -, -, wrapped⟩ := narrow_normalises fencedText ⟨UInt64.size - 1, 4⟩
  rw [behind] at again
  exact ⟨member, rfl, short, by decide, kept [] _ member rfl, behind, again, behind ▸ scanned 1 40 rfl short,
    carried ▸ wrapped 18446744073709551615 4 rfl short⟩

end CrossRef.Sample
