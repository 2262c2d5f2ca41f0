import CrossRef.Proofs.NamesAlike

/-! Lexing byte by byte. A scanner that looks at single bytes meets the parts of larger characters one by one, and may
even stop between them, since a backslash in a literal hides one byte only. But no such part is a byte that means
something, so the scanner passes over all of them, and wherever it cuts the line a character ends. -/

namespace CrossRef

namespace Text

def bytes (text : String) : List UInt8 :=
  text.toByteArray.data.toList

/-- The bytes of characters, each read as the character that has its number. -/
def octets (cs : List Char) : List Char :=
  (cs.flatMap String.utf8EncodeChar).map Char.ofUInt8

private theorem bytes_eq (text : String) : bytes text = text.toList.flatMap String.utf8EncodeChar := by
  rw [bytes, ← String.utf8Encode_toList, List.utf8Encode, List.data_toByteArray]

theorem octets_eq (text : String) : octets text.toList = (bytes text).map Char.ofUInt8 := by
  rw [bytes_eq, octets]

theorem octets_append (front back : List Char) : octets (front ++ back) = octets front ++ octets back := by
  simp [octets]

theorem octets_cons (c : Char) (cs : List Char) : octets (c :: cs) = octets [c] ++ octets cs :=
  octets_append [c] cs

theorem length_octets (cs : List Char) : (octets cs).length = size cs := by
  induction cs with
  | nil => rfl
  | cons c cs ih =>
    rw [octets_cons, List.length_append, ih, size_cons]
    simp [octets, String.length_utf8EncodeChar]

theorem toNat_ofUInt8 (byte : UInt8) : (Char.ofUInt8 byte).toNat = byte.toNat :=
  UInt8.toNat_toUInt32 byte

theorem octets_of_small {c : Char} (small : c.toNat < 128) : octets [c] = [c] := by
  have number : c.val.toNat = c.toNat := rfl
  have single : c.utf8Size = 1 := Char.utf8Size_eq_one_iff.mpr (UInt32.le_iff_toNat_le.mpr (Nat.le_of_lt_succ small))
  have same : Char.ofUInt8 c.val.toUInt8 = c := by
    apply Char.toNat_inj.mp
    rw [toNat_ofUInt8, UInt32.toNat_toUInt8, number]
    omega
  rw [octets, List.flatMap_singleton, String.utf8EncodeChar_eq_singleton single, List.map_singleton, same]

private theorem large_of_mem_octets {c : Char} (large : 128 ≤ c.toNat) {x : Char} (inside : x ∈ octets [c]) :
    128 ≤ x.toNat := by
  rw [octets, List.flatMap_singleton] at inside
  obtain ⟨byte, part, rfl⟩ := List.mem_map.mp inside
  clear inside
  rw [toNat_ofUInt8]
  have number : c.val.toNat = c.toNat := rfl
  have bound : ∀ n, 128 ≤ n → n < 256 → 128 ≤ (UInt8.ofNat n).toNat := by
    intro n low high
    rw [UInt8.toNat_ofNat']
    omega
  simp only [String.utf8EncodeChar] at part
  repeat' split at part
  all_goals
    simp only [List.mem_cons, List.not_mem_nil, or_false] at part
    rcases part with rfl | rfl | rfl | rfl <;> exact bound _ (by omega) (by omega)

/-- The bytes of a character: behind the first one there are only parts of a larger character. -/
theorem exists_octets (c : Char) : ∃ first more, octets [c] = first :: more ∧ more.length + 1 = c.utf8Size ∧
    (c.toNat < 128 ∧ first = c ∧ more = [] ∨ 128 ≤ c.toNat ∧ 128 ≤ first.toNat) ∧ ∀ x ∈ more, 128 ≤ x.toNat := by
  have length := length_octets [c]
  have filled := c.utf8Size_pos
  rw [size_cons, size_nil, Nat.add_zero] at length
  by_cases small : c.toNat < 128
  · have single := octets_of_small small
    rw [single] at length
    exact ⟨c, [], single, length, .inl ⟨small, rfl, rfl⟩, List.forall_mem_nil _⟩
  · have large := Nat.le_of_not_lt small
    obtain ⟨first, more, split⟩ := List.exists_cons_of_length_pos (l := octets [c]) (by omega)
    have parts : ∀ x ∈ first :: more, 128 ≤ x.toNat := fun x inside => large_of_mem_octets large (split ▸ inside)
    rw [split, List.length_cons] at length
    exact ⟨first, more, split, length, .inr ⟨large, parts first (List.mem_cons_self ..)⟩,
      fun x inside => parts x (List.mem_cons_of_mem _ inside)⟩

variable {p : Char → Bool} (small : ∀ x, p x = true → x.toNat < 128)

include small

/-- A test that only small characters pass sees the same in the bytes as in the characters. -/
theorem any_head_octets (cs : List Char) : (octets cs).head?.any p = cs.head?.any p := by
  cases cs with
  | nil => rfl
  | cons c cs =>
    obtain ⟨first, more, split, -, ⟨-, rfl, -⟩ | ⟨also, large⟩, -⟩ := exists_octets c
    · rw [octets_cons, split]
      rfl
    · have refused : ∀ x : Char, 128 ≤ x.toNat → p x = false := by
        intro x big
        by_contra passes
        have := small x (by simpa using passes)
        omega
      rw [octets_cons, split]
      simp [refused first large, refused c also]

private theorem takeWhile_octets (cs : List Char) : (octets cs).takeWhile p = cs.takeWhile p := by
  induction cs with
  | nil => rfl
  | cons c cs ih =>
    by_cases passes : p c = true
    · rw [octets_cons, octets_of_small (small c passes), List.singleton_append, List.takeWhile_cons_of_pos passes, ih,
        List.takeWhile_cons_of_pos passes]
    · have none := any_head_octets small (c :: cs)
      rw [List.takeWhile_cons_of_neg passes]
      cases start : octets (c :: cs) with
      | nil => rfl
      | cons x rest =>
        have stops : p x = false := by simpa [start, passes] using none
        exact List.takeWhile_cons_of_neg (by simp [stops])

omit small

theorem head?_octets {a : Char} (least : a.toNat < 128) (cs : List Char) :
    (octets cs).head? = some a ↔ cs.head? = some a := by
  have same := any_head_octets (p := (· == a)) (by simpa using least) cs
  rw [Bool.eq_iff_iff] at same
  simpa [Option.any_eq_true] using same

private theorem size_of_small {cs : List Char} (all : ∀ x ∈ cs, x.toNat < 128) : size cs = cs.length := by
  rw [← length_octets]
  induction cs with
  | nil => rfl
  | cons c cs ih =>
    rw [octets_cons, octets_of_small (all c (List.mem_cons_self ..)), List.length_append, List.length_cons,
      List.length_nil, Nat.zero_add, Nat.add_comm, List.length_cons, ih fun x inside => all x (List.mem_cons_of_mem _ inside)]

theorem utf8Size_of_small {c : Char} (small : c.toNat < 128) : c.utf8Size = 1 := by
  simpa using @size_of_small [c] (by simpa using small)

end Text

namespace Syntax

private theorem small_of_isWordChar {x : Char} (inside : isWordChar x = true) : x.toNat < 128 := by
  have := toNat_of_isWordChar inside
  omega

private theorem small_of_isDigit {x : Char} (digit : x.isDigit = true) : x.toNat < 128 :=
  small_of_isWordChar (by simp [isWordChar, Char.isAlphanum, digit])

private theorem numberTail_octets (cs : List Char) : numberTail (Text.octets cs) = numberTail cs := by
  induction cs with
  | nil => rfl
  | cons c cs ih =>
    obtain ⟨first, more, split, -, ⟨-, rfl, rfl⟩ | ⟨also, large⟩, -⟩ := Text.exists_octets c
    · rw [Text.octets_cons, split, List.singleton_append, numberTail, numberTail, ih,
        Text.any_head_octets fun x => small_of_isDigit]
    · have outside : ∀ (x : Char) (rest : List Char), 128 ≤ x.toNat → numberTail (x :: rest) = 0 := by
        intro x rest big
        refine if_neg ?_
        intro inside
        simp only [Bool.or_eq_true, Bool.and_eq_true, beq_iff_eq] at inside
        rcases inside with (letter | rfl) | ⟨rfl, -⟩
        · have := small_of_isWordChar (x := x) (by simp [isWordChar, letter])
          omega
        · exact absurd big (by decide)
        · exact absurd big (by decide)
      rw [Text.octets_cons, split, List.cons_append, outside first _ large, outside c _ also]

private theorem size_take_numberTail (cs : List Char) : Text.size (cs.take (numberTail cs)) = numberTail cs := by
  fun_induction numberTail cs with
  | case1 => rfl
  | case2 c cs counted ih =>
    have single : c.utf8Size = 1 := by
      apply Text.utf8Size_of_small
      simp only [Bool.or_eq_true, Bool.and_eq_true, beq_iff_eq] at counted
      rcases counted with (letter | rfl) | ⟨rfl, -⟩
      · exact small_of_isWordChar (by simp [isWordChar, letter])
      · decide
      · decide
    rw [List.take_succ_cons, Text.size_cons, ih, single, Nat.add_comm]
  | case3 => rfl

/-- A literal goes on behind bytes that neither hide nor end anything. -/
theorem literalTail_append {front : List Char} (inert : ∀ x ∈ front, x ≠ '\x5c' ∧ x ≠ '\x22') (cs : List Char) :
    literalTail (front ++ cs) = (literalTail cs).map (· + front.length) id := by
  induction front with
  | nil => rfl
  | cons x front ih =>
    obtain ⟨hides, ends⟩ := inert x (List.mem_cons_self ..)
    have later := ih fun y inside => inert y (List.mem_cons_of_mem _ inside)
    rw [List.cons_append, literalTail, if_neg ends, later]
    · rfl
    · exact fun same => absurd same hides
    · exact fun _ _ same => absurd same hides

private theorem literalTail_octets (cs : List Char) :
    literalTail (Text.octets cs) = (Text.size (cs.take (literalTail cs).1), (literalTail cs).2) := by
  have inert : ∀ x : Char, 128 ≤ x.toNat → x ≠ '\x5c' ∧ x ≠ '\x22' := by
    intro x large
    constructor <;> rintro rfl <;> exact absurd large (by decide)
  fun_induction literalTail cs with
  | case1 => rfl
  | case2 => rfl
  | case3 c cs ih =>
    obtain ⟨first, more, split, length, -, parts⟩ := Text.exists_octets c
    have hidden := literalTail_append (fun x inside => inert x (parts x inside)) (Text.octets cs)
    have backslash : Text.octets ['\x5c'] = ['\x5c'] := rfl
    have width : Char.utf8Size '\x5c' = 1 := rfl
    rw [Text.octets_cons, backslash, Text.octets_cons, split, List.singleton_append, List.cons_append, literalTail,
      hidden, ih]
    simp only [Prod.map_apply, id_eq, Prod.map_fst, Prod.map_snd, List.take_succ_cons, Text.size_cons, width, ← length]
    congr 1
    omega
  | case4 cs single pair =>
    have quote : Text.octets ['\x22'] = ['\x22'] := rfl
    rw [Text.octets_cons, quote, List.singleton_append, literalTail, if_pos rfl]
    · rfl
    · exact fun same => absurd same (by decide)
    · exact fun _ _ same => absurd same (by decide)
  | case5 c cs single pair other ih =>
    have solid : c ≠ '\x5c' := by
      rintro rfl
      cases cs with
      | nil => exact single rfl rfl
      | cons d cs => exact pair d cs rfl rfl
    obtain ⟨first, more, split, length, whole, parts⟩ := Text.exists_octets c
    have plain : ∀ x ∈ first :: more, x ≠ '\x5c' ∧ x ≠ '\x22' := by
      intro x inside
      rcases List.mem_cons.mp inside with rfl | later
      · rcases whole with ⟨-, rfl, -⟩ | ⟨-, large⟩
        · exact ⟨solid, other⟩
        · exact inert x large
      · exact inert x (parts x later)
    rw [Text.octets_cons, split, literalTail_append plain, ih]
    simp only [Prod.map_apply, id_eq, Prod.map_fst, Prod.map_snd, List.take_succ_cons, Text.size_cons, ← length,
      List.length_cons]
    congr 1
    omega

/-- The kind of the token that starts at an offset of a line with the first of some bytes, and how many of the others
belong to it; `none` if this takes a cut inside a character. -/
def scanLexeme (line : String) (offset : Nat) (first : Char) (rest : List Char) : Option (TokenKind × Nat) :=
  if first = '/' ∧ rest.head? = some '/' then
    some (.comment, rest.length)
  else if first = '\x22' then
    let (length, closed) := literalTail rest
    some (.literal closed, length)
  else if first = '\x60' ∧ rest.head? = some '\x60' then do
    let behind ← Text.between? line (offset + 2) line.utf8ByteSize
    match charsToFence? behind.toList with
    | some length => some (.quoted, Text.size (behind.toList.take length) + 3)
    | none => some (.punct, 1)
  else if isWordStart first then do
    let length := (rest.takeWhile isWordChar).length
    let word ← Text.between? line offset (offset + 1 + length)
    some (if isKeyword word then .keyword else .word, length)
  else if first.isDigit then
    some (.number, numberTail rest)
  else if first = '.' then
    some (.dot, 0)
  else do
    let behind ← Text.between? line offset line.utf8ByteSize
    some (.punct, (behind.toList.head?.elim 1 Char.utf8Size) - 1)

/-- The tokens of a line from an offset on, found by going through its bytes. The first `skip` bytes belong to a token
that was found before them. -/
def scanBytes (line : String) (number start : Nat) : (skip offset : Nat) → List Char → Option (List Token)
  | _, _, [] => some []
  | skip + 1, offset, _ :: rest => scanBytes line number start skip (offset + 1) rest
  | 0, offset, first :: rest =>
    if isGap first then
      scanBytes line number start 0 (offset + 1) rest
    else do
      let (kind, more) ← scanLexeme line offset first rest
      let text ← Text.between? line offset (offset + 1 + more)
      let later ← scanBytes line number start more (offset + 1) rest
      some (⟨kind, ⟨start + offset, 1 + more⟩, number, offset, text⟩ :: later)

def scanLine (line : String) (number start : Nat) : Option (List Token) :=
  scanBytes line number start 0 0 ((Text.bytes line).map Char.ofUInt8)

private theorem between?_of_toList {line : String} {front inside back : List Char}
    (whole : line.toList = front ++ (inside ++ back)) {start stop : Nat} (first : start = Text.size front)
    (last : stop = Text.size front + Text.size inside) :
    Text.between? line start stop = some (String.ofList inside) := by
  subst first last
  exact slice?_append whole

section lexeme

variable {line : String} {front rest : List Char} {c : Char} (whole : line.toList = front ++ c :: rest)

include whole

private theorem between?_behind (skipped : List Char) {later : List Char} (parts : c :: rest = skipped ++ later)
    {start : Nat} (cut : start = Text.size front + Text.size skipped) :
    Text.between? line start line.utf8ByteSize = some (String.ofList later) := by
  rw [parts, ← List.append_assoc] at whole
  have total : line.utf8ByteSize = Text.size (front ++ skipped) + Text.size later := by
    rw [← Text.size_toList, whole, Text.size_append]
  have last : line.toList = (front ++ skipped) ++ (later ++ []) := by rw [whole, List.append_nil]
  exact between?_of_toList last (by rw [cut, Text.size_append]) total

private theorem scanLexeme_large (large : 128 ≤ c.toNat) {first : Char} (part : 128 ≤ first.toNat) (more : List Char) :
    scanLexeme line (Text.size front) first more = some (.punct, c.utf8Size - 1) ∧ lexeme c rest = (.punct, 0) := by
  have other : ∀ {x y : Char}, 128 ≤ x.toNat → y.toNat < 128 → x ≠ y := by
    rintro x y big small rfl
    omega
  have noWord : ∀ {x : Char}, 128 ≤ x.toNat → isWordStart x = false ∧ x.isDigit = false := by
    intro x big
    constructor <;> by_contra passes
    · have := small_of_isWordChar (isWordChar_of_isWordStart (by simpa using passes))
      omega
    · have := small_of_isDigit (x := x) (by simpa using passes)
      omega
  have behind := between?_behind whole [] (List.nil_append _).symm rfl
  constructor
  · simp only [scanLexeme, other part (show '/'.toNat < 128 by decide), other part (show '\x22'.toNat < 128 by decide),
      other part (show '\x60'.toNat < 128 by decide), other part (show '.'.toNat < 128 by decide), noWord part,
      false_and, if_false, Bool.false_eq_true, Text.size_nil, Nat.add_zero] at behind ⊢
    rw [behind]
    simp
  · simp only [lexeme, other large (show '/'.toNat < 128 by decide), other large (show '\x22'.toNat < 128 by decide),
      other large (show '\x60'.toNat < 128 by decide), other large (show '.'.toNat < 128 by decide), noWord large,
      false_and, if_false, Bool.false_eq_true]

/-- A word has small characters only, so it is cut out where it ends for both. -/
private theorem between?_word (small : c.toNat < 128) :
    let length := (rest.takeWhile isWordChar).length
    ((Text.octets rest).takeWhile isWordChar).length = length ∧ Text.size (rest.take length) = length ∧
      Text.between? line (Text.size front) (Text.size front + 1 + length) =
        some (String.ofList (c :: rest.take length)) := by
  intro length
  have taken : rest.take length = rest.takeWhile isWordChar :=
    (List.prefix_iff_eq_take.mp (List.takeWhile_prefix isWordChar)).symm
  have size : Text.size (rest.take length) = length := by
    rw [taken]
    exact Text.size_of_small fun x inside => small_of_isWordChar (List.all_eq_true.mp List.all_takeWhile x inside)
  refine ⟨congrArg List.length (Text.takeWhile_octets (fun x => small_of_isWordChar) rest), size, ?_⟩
  have shown : line.toList = front ++ ((c :: rest.take length) ++ rest.drop length) := by
    rw [whole, List.cons_append, List.take_append_drop]
  exact between?_of_toList shown rfl (by rw [Text.size_cons, Text.utf8Size_of_small small, size, Nat.add_assoc])

private theorem scanLexeme_small (small : c.toNat < 128) :
    scanLexeme line (Text.size front) c (Text.octets rest) =
      some ((lexeme c rest).1, Text.size (rest.take (lexeme c rest).2)) := by
  have slash := Text.head?_octets (a := '/') (by decide) rest
  have tick := Text.head?_octets (a := '\x60') (by decide) rest
  obtain ⟨length, size, shown⟩ := between?_word whole small
  unfold scanLexeme lexeme
  simp only [slash, tick, length, shown, Option.bind_eq_bind, Option.bind_some]
  split_ifs with comment literal fence word keyword number dot
  · rw [Text.length_octets, List.take_length]
  · rw [literalTail_octets]
  · obtain ⟨rfl, second⟩ := fence
    cases rest with
    | nil => cases second
    | cons next rest =>
      obtain rfl := Option.some.inj second
      have inner := between?_behind whole ['\x60', '\x60'] rfl (show Text.size front + 2 = _ from rfl)
      rw [inner]
      simp only [Option.bind_some, String.toList_ofList, List.tail_cons]
      cases found : charsToFence? rest with
      | none => rfl
      | some k =>
        have quoted : Text.size (rest.take (k + 2)) = Text.size (rest.take k) + 2 := by
          rw [take_of_charsToFence? found, Text.size_append]
          rfl
        have one : Char.utf8Size '\x60' = 1 := rfl
        simp only [List.take_succ_cons, Text.size_cons, quoted, one]
        congr 2
        omega
  · rw [size]
  · rw [size]
  · rw [numberTail_octets, size_take_numberTail]
  · rfl
  · have all := between?_behind whole [] (List.nil_append _).symm (show Text.size front = _ from rfl)
    rw [all]
    simp [Text.utf8Size_of_small small]

/-- Bytes show the same token as characters do, and cutting it out works. -/
theorem scanLexeme_eq {first : Char} {more : List Char} (length : more.length + 1 = c.utf8Size)
    (cases : c.toNat < 128 ∧ first = c ∧ more = [] ∨ 128 ≤ c.toNat ∧ 128 ≤ first.toNat) :
    scanLexeme line (Text.size front) first (more ++ Text.octets rest) =
      some ((lexeme c rest).1, more.length + Text.size (rest.take (lexeme c rest).2)) := by
  rcases cases with ⟨small, rfl, rfl⟩ | ⟨large, part⟩
  · rw [List.nil_append, scanLexeme_small whole small, List.length_nil, Nat.zero_add]
  · obtain ⟨scanned, lexed⟩ := scanLexeme_large whole large part (more ++ Text.octets rest)
    rw [scanned, lexed, ← length]
    simp

end lexeme

theorem small_of_isGap {x : Char} (blank : isGap x = true) : x.toNat < 128 := by
  simp only [isGap, Bool.or_eq_true, beq_iff_eq] at blank
  rcases blank with (((rfl | rfl) | rfl) | rfl) | rfl <;> decide

private theorem scanBytes_skip (line : String) (number start offset : Nat) (skipped rest : List Char) :
    scanBytes line number start skipped.length offset (skipped ++ rest) =
      scanBytes line number start 0 (offset + skipped.length) rest := by
  induction skipped generalizing offset with
  | nil => rfl
  | cons x skipped ih => rw [List.length_cons, List.cons_append, scanBytes, ih, Nat.add_right_comm, ← Nat.add_assoc]

private theorem Lexes.scanBytes_eq {line : String} {number start column : Nat} {cs : List Char} {tokens : List Token}
    (cut : Lexes number start column cs tokens) {front : List Char} (whole : line.toList = front ++ cs)
    (place : column = Text.size front) : scanBytes line number start 0 column (Text.octets cs) = some tokens := by
  induction cut generalizing front with
  | nothing => rfl
  | @gap column c cs tokens blank rest ih =>
    have small := small_of_isGap blank
    have behind := @ih (front ++ [c]) (by rw [whole, List.append_assoc, List.singleton_append])
      (by simp [place])
    rw [Text.utf8Size_of_small small] at behind
    rw [Text.octets_cons, Text.octets_of_small small, List.singleton_append, scanBytes, if_pos blank, behind]
  | @token column c more cs tokens kind solid found rest ih =>
    obtain ⟨first, parts, split, length, cases, -⟩ := Text.exists_octets c
    have begins : ¬isGap first = true := by
      rcases cases with ⟨-, rfl, -⟩ | ⟨-, large⟩
      · simp [solid]
      · intro blank
        have := small_of_isGap blank
        omega
    have scanned := scanLexeme_eq whole length cases
    rw [found, List.take_left] at scanned
    have shown : line.toList = front ++ (c :: more ++ cs) := whole
    have ends : column + 1 + (parts.length + Text.size more) = Text.size front + Text.size (c :: more) := by
      rw [place, Text.size_cons, ← length]
      omega
    have cut := between?_of_toList shown place ends
    have skip := scanBytes_skip line number start (column + 1) (parts ++ Text.octets more) (Text.octets cs)
    rw [List.length_append, Text.length_octets, List.append_assoc] at skip
    have behind := @ih (front ++ c :: more) (by rw [whole]; simp) (by rw [place, Text.size_append])
    have offset : column + 1 + (parts.length + Text.size more) = column + Text.size (c :: more) := by
      rw [Text.size_cons, ← length]
      omega
    rw [offset] at cut skip
    rw [Text.octets_cons, split, Text.octets_append, List.cons_append, scanBytes, if_neg begins]
    rw [Text.octets_append, ← place] at scanned
    rw [scanned]
    simp only [Option.bind_eq_bind, Option.bind_some, offset, cut, skip, behind]
    have width : 1 + (parts.length + Text.size more) = Text.size (c :: more) := by
      rw [Text.size_cons, ← length]
      omega
    rw [width, cutToken]

/-- Going through the bytes of a line gives its tokens, and never takes a cut inside a character. -/
theorem scanLine_eq (line : String) (number start : Nat) :
    scanLine line number start = some (lexLine number start 0 0 line.toList) := by
  rw [scanLine, ← Text.octets_eq]
  exact (lexes_lexLine number start 0 line.toList).scanBytes_eq (List.nil_append line.toList).symm rfl

end Syntax

end CrossRef
