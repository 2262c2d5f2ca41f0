import CrossRef.Proofs.TokenPlaces

/-! Putting names in place of names. What stands behind a token decides where the token ends only by a few things, so
it may be exchanged for a text that has other names as long as the token cannot tell. What a text has besides its
names stays in its place. -/

namespace CrossRef.Syntax

def IsWord : List Char → Prop
  | [] => False
  | c :: cs => isWordStart c = true ∧ ∀ x ∈ cs, isWordChar x = true

theorem isWordChar_of_isWordStart {c : Char} (start : isWordStart c = true) : isWordChar c = true := by
  simp only [isWordStart, isWordChar, Char.isAlphanum, Bool.or_eq_true] at start ⊢
  tauto

theorem IsWord.all {word : List Char} (valid : IsWord word) : ∀ x ∈ word, isWordChar x = true := by
  cases word with
  | nil => simp
  | cons c cs =>
    intro x member
    rcases List.mem_cons.mp member with rfl | inside
    · exact isWordChar_of_isWordStart valid.1
    · exact valid.2 x inside

theorem IsWord.any_head {word : List Char} (valid : IsWord word) {p : Char → Bool} {value : Bool}
    (uniform : ∀ x, isWordStart x = true → p x = value) (rest : List Char) : (word ++ rest).head?.any p = value := by
  cases word with
  | nil => cases valid
  | cons c cs => exact uniform c valid.1

theorem IsWord.head?_ne {word : List Char} (valid : IsWord word) (rest : List Char) :
    (word ++ rest).head? ≠ some '\x60' := by
  intro head
  have start : (word ++ rest).head?.any isWordStart = true := valid.any_head (fun _ => id) rest
  rw [head] at start
  cases start

theorem isGap_of_isWordStart {c : Char} (start : isWordStart c = true) : isGap c = false := by
  by_contra gap
  simp only [isGap, Bool.not_eq_false, Bool.or_eq_true, beq_iff_eq] at gap
  rcases gap with (((rfl | rfl) | rfl) | rfl) | rfl <;> cases start

theorem charsToFence?_cons_eq_none_iff {c : Char} {cs : List Char} :
    charsToFence? (c :: cs) = none ↔ ¬(c = '\x60' ∧ cs.head? = some '\x60') ∧ charsToFence? cs = none := by
  by_cases opens : c = '\x60' ∧ cs.head? = some '\x60'
  · obtain ⟨rfl, next⟩ := opens
    obtain ⟨rest, rfl⟩ := List.head?_eq_some_iff.mp next
    simp [charsToFence?]
  · rw [charsToFence?, Option.map_eq_none_iff]
    · exact ⟨fun later => ⟨opens, later⟩, And.right⟩
    · rintro rest rfl rfl
      exact opens ⟨rfl, rfl⟩

theorem charsToFence?_word {word : List Char} (valid : IsWord word) {rest : List Char} :
    charsToFence? (word ++ rest) = none ↔ charsToFence? rest = none := by
  have inside := valid.all
  clear valid
  induction word with
  | nil => rfl
  | cons c word ih =>
    have solid : c ≠ '\x60' := by
      rintro rfl
      cases inside _ (List.mem_cons_self ..)
    have later := ih fun x member => inside x (List.mem_cons_of_mem _ member)
    rw [List.cons_append, charsToFence?_cons_eq_none_iff]
    exact ⟨fun missing => later.mp missing.2, fun missing => ⟨fun opens => solid opens.1, later.mpr missing⟩⟩

theorem lexeme_of_isWord {c : Char} {more rest : List Char} (word : IsWord (c :: more))
    (free : isKeyword (String.ofList (c :: more)) = false) (ends : rest.head?.any isWordChar = false) :
    lexeme c (more ++ rest) = (.word, more.length) := by
  have longest := length_takeWhile_append.mpr ⟨word.2, ends⟩
  have others : c ≠ '/' ∧ c ≠ '\x22' ∧ c ≠ '\x60' := by
    refine ⟨?_, ?_, ?_⟩ <;> rintro rfl <;> cases word.1
  simp only [lexeme, others.1, others.2.1, others.2.2, false_and, if_false, word.1, if_true, longest, List.take_left,
    free, Bool.false_eq_true]

private theorem literalTail_closed {cs : List Char} (closed : (literalTail cs).2 = true) (ds : List Char) :
    literalTail (cs.take (literalTail cs).1 ++ ds) = literalTail cs := by
  fun_induction literalTail cs with
  | case1 => cases closed
  | case2 => cases closed
  | case3 c cs ih =>
    have inner := ih closed
    simp only [Prod.map_fst, List.take_succ_cons, List.cons_append, literalTail, inner]
  | case4 cs _ => simp [literalTail]
  | case5 c cs single pair other ih =>
    have inner := ih closed
    have solid : c ≠ '\x5c' := by
      rintro rfl
      cases cs with
      | nil => exact single rfl rfl
      | cons d cs => exact pair d cs rfl rfl
    simp only [Prod.map_fst, List.take_succ_cons, List.cons_append]
    rw [literalTail, if_neg other, inner]
    · exact fun same => absurd same solid
    · exact fun _ _ same => absurd same solid

private theorem literalTail_open {cs : List Char} (unclosed : (literalTail cs).2 = false) :
    (literalTail cs).1 = cs.length := by
  fun_induction literalTail cs with
  | case1 => rfl
  | case2 => rfl
  | case3 c cs ih => simp [ih unclosed]
  | case4 cs _ => cases unclosed
  | case5 c cs _ _ _ ih => simp [ih unclosed]

private theorem charsToFence?_take {cs : List Char} {n : Nat} (found : charsToFence? cs = some n) (ds : List Char) :
    charsToFence? (cs.take (n + 2) ++ ds) = some n := by
  fun_induction charsToFence? cs generalizing n with
  | case1 cs =>
    cases found
    simp [charsToFence?]
  | case2 c cs single ih =>
    obtain ⟨m, inner, rfl⟩ := Option.map_eq_some_iff.mp found
    rw [List.take_succ_cons, List.cons_append, charsToFence?, ih inner]
    · rfl
    · rintro rest rfl same
      cases cs with
      | nil => cases inner
      | cons second cs =>
        rw [List.take_succ_cons, List.cons_append] at same
        obtain ⟨rfl, -⟩ := List.cons.inj same
        exact single cs rfl rfl
  | case3 => cases found

private theorem toNat_of_isDigit {c : Char} (digit : c.isDigit = true) : 48 ≤ c.toNat ∧ c.toNat ≤ 57 := by
  rw [Char.isDigit, Bool.and_eq_true, decide_eq_true_eq, decide_eq_true_eq] at digit
  exact ⟨UInt32.le_iff_toNat_le.mp digit.1, UInt32.le_iff_toNat_le.mp digit.2⟩

private theorem toNat_of_isAlpha {c : Char} (letter : c.isAlpha = true) : 65 ≤ c.toNat ∧ c.toNat ≤ 122 := by
  have bounds : c.isAlpha = (decide ('A'.val ≤ c.val ∧ c.val ≤ 'Z'.val) || ('a'.val ≤ c.val && c.val ≤ 'z'.val)) := rfl
  rw [bounds, Bool.or_eq_true, Bool.and_eq_true, decide_eq_true_eq, decide_eq_true_eq, decide_eq_true_eq] at letter
  rcases letter with ⟨low, high⟩ | ⟨low, high⟩
  · have low : 65 ≤ c.toNat := UInt32.le_iff_toNat_le.mp low
    have high : c.toNat ≤ 90 := UInt32.le_iff_toNat_le.mp high
    omega
  · have low : 97 ≤ c.toNat := UInt32.le_iff_toNat_le.mp low
    have high : c.toNat ≤ 122 := UInt32.le_iff_toNat_le.mp high
    omega

theorem toNat_of_isWordChar {c : Char} (inside : isWordChar c = true) : 39 ≤ c.toNat ∧ c.toNat ≤ 122 := by
  simp only [isWordChar, Char.isAlphanum, Bool.or_eq_true, beq_iff_eq] at inside
  rcases inside with ((letter | digit) | rfl) | rfl
  · have := toNat_of_isAlpha letter
    omega
  · have := toNat_of_isDigit digit
    omega
  · decide
  · decide

private theorem isDigit_of_isWordStart (x : Char) (start : isWordStart x = true) : x.isDigit = false := by
  by_contra digit
  have small := toNat_of_isDigit (by simpa using digit)
  simp only [isWordStart, Bool.or_eq_true, beq_iff_eq] at start
  rcases start with letter | rfl
  · have := toNat_of_isAlpha letter
    omega
  · exact absurd small (by decide)

/-- Where a token ends: what may not stand behind it. -/
structure EndsBefore (kind : TokenKind) (shown rest : List Char) : Prop where
  word : kind = .word ∨ kind = .keyword → rest.head?.any isWordChar = false
  number : kind = .number → numberTail rest = 0
  backtick : shown = ['\x60'] → rest.head? ≠ some '\x60'
  fence : shown = fence → charsToFence? rest = none

private theorem literalTail_same {more cs ds : List Char} (nothing : cs = [] → ds = [])
    (length : (literalTail (more ++ cs)).1 = more.length) : literalTail (more ++ ds) = literalTail (more ++ cs) := by
  cases closed : (literalTail (more ++ cs)).2 with
  | true =>
    have same := literalTail_closed closed ds
    rwa [length, List.take_left] at same
  | false =>
    have all := literalTail_open closed
    obtain rfl : cs = [] := by simpa [length] using all
    rw [nothing rfl]

theorem numberTail_pos {cs : List Char} (digit : cs.head?.any Char.isDigit = true) : numberTail cs ≠ 0 := by
  cases cs with
  | nil => cases digit
  | cons c cs =>
    have digit : c.isDigit = true := digit
    simp [numberTail, Char.isAlphanum, digit]

private theorem numberTail_append {more rest : List Char} (ends : numberTail (more ++ rest) = more.length) :
    numberTail rest = 0 := by
  induction more with
  | nil => exact ends
  | cons c more ih =>
    rw [List.cons_append, numberTail] at ends
    split at ends
    · exact ih (Nat.succ.inj ends)
    · cases ends

private theorem numberTail_same {more cs ds : List Char} (stops : numberTail ds = 0)
    (ends : numberTail (more ++ cs) = more.length) : numberTail (more ++ ds) = more.length := by
  induction more with
  | nil => exact stops
  | cons c more ih =>
    rw [List.cons_append, numberTail] at ends ⊢
    split at ends
    · rename_i inside
      have later := Nat.succ.inj ends
      have still : (c.isAlphanum || c == '_' || (c == '.' && (more ++ ds).head?.any Char.isDigit)) = true := by
        cases more with
        | nil =>
          have digit : cs.head?.any Char.isDigit = false := by
            by_contra digit
            exact numberTail_pos (by simpa using digit) later
          simp only [List.nil_append, digit, Bool.and_false, Bool.or_false] at inside
          rw [inside, Bool.true_or]
        | cons d more => exact inside
      rw [if_pos still, ih later, List.length_cons]
    · cases ends

theorem isWordStart_of_lexeme {c : Char} {rest : List Char} {kind : TokenKind} {n : Nat}
    (found : lexeme c rest = (kind, n)) (word : kind = .word ∨ kind = .keyword) : isWordStart c = true := by
  unfold lexeme at found
  split_ifs at found with comment literal fence start number dot
  · cases found
    simp at word
  · cases found
    simp at word
  · split at found <;> cases found <;> simp at word
  · exact start
  all_goals
    cases found
    simp at word

theorem lexeme_number {c : Char} {rest : List Char} {n : Nat} (found : lexeme c rest = (.number, n)) :
    c.isDigit = true ∧ numberTail rest = n := by
  unfold lexeme at found
  split_ifs at found with comment literal fence start number dot
  · cases found
  · cases found
  · split at found <;> cases found
  · obtain ⟨kind, -⟩ := Prod.mk.inj found
    split at kind <;> cases kind
  · exact ⟨number, (Prod.mk.inj found).2⟩
  · cases found
  · cases found

/-- A token takes all that it can. -/
theorem endsBefore_of_lexeme {c : Char} {more rest : List Char} {kind : TokenKind}
    (found : lexeme c (more ++ rest) = (kind, more.length)) : EndsBefore kind (c :: more) rest := by
  refine ⟨?_, ?_, ?_, ?_⟩
  · intro word
    exact (lexeme_of_isWordStart (isWordStart_of_lexeme found word) found).2.1
  · rintro rfl
    exact numberTail_append (lexeme_number found).2
  · intro shown next
    obtain ⟨rfl, rfl⟩ := List.cons.inj shown
    rw [List.nil_append, lexeme, if_neg (by simp), if_neg (by decide), if_pos ⟨rfl, next⟩] at found
    split at found <;> cases found
  · intro shown
    obtain ⟨rfl, rfl⟩ := List.cons.inj shown
    by_contra fenced
    obtain ⟨n, inner⟩ := Option.ne_none_iff_exists'.mp fenced
    simp [lexeme, inner] at found

/-- A token is found again before another text, if it ends there. -/
theorem lexeme_congr {c : Char} {more cs ds : List Char} {kind : TokenKind}
    (found : lexeme c (more ++ cs) = (kind, more.length)) (nothing : cs = [] → ds = [])
    (slash : ds.head? = some '/' → cs.head? = some '/') (ends : EndsBefore kind (c :: more) ds) :
    lexeme c (more ++ ds) = (kind, more.length) := by
  have slash : (more ++ ds).head? = some '/' → (more ++ cs).head? = some '/' := by
    cases more with
    | nil => exact slash
    | cons d more => exact id
  unfold lexeme at found ⊢
  by_cases comment : c = '/' ∧ (more ++ cs).head? = some '/'
  · -- A comment takes all of the line.
    rw [if_pos comment] at found
    obtain ⟨rfl, length⟩ := Prod.mk.inj found
    obtain rfl : cs = [] := by simpa using length
    rw [nothing rfl, if_pos comment, List.append_nil]
  rw [if_neg comment] at found
  rw [if_neg fun ⟨first, second⟩ => comment ⟨first, slash second⟩]
  by_cases literal : c = '\x22'
  · rw [if_pos literal] at found ⊢
    obtain ⟨rfl, length⟩ := Prod.mk.inj found
    rw [literalTail_same nothing length, ← length]
  rw [if_neg literal] at found ⊢
  by_cases opened : c = '\x60' ∧ (more ++ cs).head? = some '\x60'
  · rw [if_pos opened] at found
    cases more with
    | nil => split at found <;> cases found
    | cons d more =>
      rw [if_pos ⟨opened.1, opened.2⟩]
      simp only [List.cons_append, List.tail_cons] at found ⊢
      cases inner : charsToFence? (more ++ cs) with
      | none =>
        rw [inner] at found
        obtain ⟨rfl, length⟩ := Prod.mk.inj found
        obtain rfl : more = [] := by simpa using length
        obtain ⟨rfl, second⟩ := opened
        obtain rfl : d = '\x60' := by simpa using second
        rw [List.nil_append, ends.fence rfl]
        rfl
      | some n =>
        rw [inner] at found
        have length := (Prod.mk.inj found).2
        have taken := charsToFence?_take inner ds
        rw [List.take_left' (by simpa using length.symm)] at taken
        rw [taken]
        exact found
  rw [if_neg opened] at found
  have closed : ¬(c = '\x60' ∧ (more ++ ds).head? = some '\x60') := by
    rintro ⟨rfl, second⟩
    cases more with
    | nil => exact ends.backtick rfl second
    | cons d more => exact opened ⟨rfl, second⟩
  rw [if_neg closed]
  by_cases word : isWordStart c = true
  · rw [if_pos word] at found ⊢
    obtain ⟨rfl, length⟩ := Prod.mk.inj found
    have inside := (length_takeWhile_append.mp length).1
    have stops : ds.head?.any isWordChar = false := ends.word (by split <;> simp)
    have longest := length_takeWhile_append.mpr ⟨inside, stops⟩
    simp only [length, longest, List.take_left]
  rw [if_neg word] at found ⊢
  by_cases number : c.isDigit = true
  · rw [if_pos number] at found ⊢
    obtain ⟨rfl, length⟩ := Prod.mk.inj found
    rw [numberTail_same (ends.number rfl) length]
  · rw [if_neg number] at found ⊢
    exact found

theorem numberTail_word {word : List Char} (valid : IsWord word) (rest : List Char) : numberTail (word ++ rest) ≠ 0 := by
  cases word with
  | nil => cases valid
  | cons c word =>
    have start := valid.1
    simp only [isWordStart, Bool.or_eq_true] at start
    have inside : (c.isAlphanum || c == '_' || c == '.' && (word ++ rest).head?.any Char.isDigit) = true := by
      simp only [Char.isAlphanum, Bool.or_eq_true]
      tauto
    rw [List.cons_append, numberTail, if_pos inside]
    exact Nat.succ_ne_zero _

/-- What the text of an identifier is made of. -/
inductive IsName : TokenKind → List Char → Prop where
  | word {text : List Char} (valid : IsWord text) : IsName .word text
  | quoted {cs : List Char} {k : Nat} (found : charsToFence? cs = some k) (ends : cs.length = k + 2) :
      IsName .quoted ('\x60' :: '\x60' :: cs)

def endsName (c : Char) : Bool :=
  isWordChar c || c == '\x60'

theorem take_of_charsToFence? {cs : List Char} {k : Nat} (found : charsToFence? cs = some k) :
    cs.take (k + 2) = cs.take k ++ fence := by
  fun_induction charsToFence? cs generalizing k with
  | case1 cs =>
    cases found
    rfl
  | case2 c cs open_ ih =>
    obtain ⟨m, inner, rfl⟩ := Option.map_eq_some_iff.mp found
    rw [List.take_succ_cons, List.take_succ_cons, ih inner, List.cons_append]
  | case3 => cases found

theorem isName_of_lexeme {c : Char} {more rest : List Char} {kind : TokenKind}
    (found : lexeme c (more ++ rest) = (kind, more.length)) (identifier : kind = .word ∨ kind = .quoted) :
    IsName kind (c :: more) := by
  rcases identifier with rfl | rfl
  · obtain ⟨start, inside, -⟩ := lexeme_word found
    exact .word ⟨start, inside⟩
  · obtain ⟨rfl, cs, k, fenced, rfl⟩ := quoted_text found
    have whole := charsToFence?_take fenced []
    rw [List.append_nil] at whole
    exact .quoted whole (List.length_take_of_le (charsToFence?_le fenced))

namespace IsName

variable {kind : TokenKind} {text : List Char}

theorem lexeme {c : Char} {more rest : List Char} (name : IsName kind (c :: more))
    (free : isKeyword (String.ofList (c :: more)) = false) (ends : kind = .word → rest.head?.any isWordChar = false) :
    lexeme c (more ++ rest) = (kind, more.length) := by
  cases name with
  | word valid => exact lexeme_of_isWord valid free (ends rfl)
  | @quoted cs k found length =>
    have taken := charsToFence?_take found rest
    rw [← length, List.take_length] at taken
    have start : isWordStart '\x60' = false := rfl
    simp [Syntax.lexeme, taken, length]

/-- A test that tells no two words apart by their first characters, and no word from a fence. -/
theorem any_head (name : IsName kind text) {p : Char → Bool} {value : Bool}
    (uniform : ∀ x, isWordStart x = true → p x = value) (tick : p '\x60' = value) (rest : List Char) :
    (text ++ rest).head?.any p = value := by
  cases name with
  | word valid => exact valid.any_head uniform rest
  | quoted => exact tick

theorem ne_nil (name : IsName kind text) : text ≠ [] := by
  rintro rfl
  cases name with
  | word valid => cases valid

theorem isGap_eq_false {c : Char} {more : List Char} (name : IsName kind (c :: more)) : isGap c = false := by
  cases name with
  | word valid => exact isGap_of_isWordStart valid.1
  | quoted => rfl

theorem getLast? (name : IsName kind text) : text.getLast?.any endsName = true := by
  cases name with
  | word valid =>
    have filled := (IsName.word valid).ne_nil
    rw [List.getLast?_eq_some_getLast filled, Option.any_some, endsName, valid.all _ (List.getLast_mem filled),
      Bool.true_or]
  | @quoted cs k found ends =>
    have whole := take_of_charsToFence? found
    rw [← ends, List.take_length] at whole
    have last : ('\x60' :: '\x60' :: cs).getLast? = some '\x60' :=
      List.getLast?_eq_some_iff.mpr ⟨'\x60' :: '\x60' :: (cs.take k ++ ['\x60']), by simpa [fence] using whole⟩
    rw [last]
    rfl

private theorem exists_solid (name : IsName kind text) {p : Char → Bool}
    (outside : ∀ x, isWordStart x = true → p x = false) (tick : p '\x60' = false) : ∃ c ∈ text, p c = false := by
  cases name with
  | @word text valid =>
    cases text with
    | nil => cases valid
    | cons c text => exact ⟨c, List.mem_cons_self .., outside c valid.1⟩
  | quoted => exact ⟨_, List.mem_cons_self .., tick⟩

end IsName

/-- Two texts that differ in names only. -/
inductive NamesAlike : List Char → List Char → Prop where
  | nothing : NamesAlike [] []
  | kept (c : Char) {cs ds : List Char} (rest : NamesAlike cs ds) : NamesAlike (c :: cs) (c :: ds)
  | name {first second : TokenKind} {old new cs ds : List Char} (before : IsName first old) (after : IsName second new)
      (rest : NamesAlike cs ds) : NamesAlike (old ++ cs) (new ++ ds)

namespace NamesAlike

variable {cs ds : List Char}

theorem append (front : List Char) (alike : NamesAlike cs ds) : NamesAlike (front ++ cs) (front ++ ds) := by
  induction front with
  | nil => exact alike
  | cons c front ih => exact .kept c ih

theorem eq_nil_iff (alike : NamesAlike cs ds) : cs = [] ↔ ds = [] := by
  cases alike with
  | nothing => rfl
  | kept => simp
  | name before after => simp [before.ne_nil, after.ne_nil]

/-- A test that tells no names apart by their first characters tells no such texts apart. -/
theorem any_head (alike : NamesAlike cs ds) {p : Char → Bool} {value : Bool}
    (uniform : ∀ x, isWordStart x = true → p x = value) (tick : p '\x60' = value) :
    cs.head?.any p = ds.head?.any p := by
  cases alike with
  | nothing => rfl
  | kept => rfl
  | name before after => rw [before.any_head uniform tick, after.any_head uniform tick]

theorem head?_eq_some_iff (alike : NamesAlike cs ds) {x : Char} (other : isWordStart x = false)
    (tick : x ≠ '\x60') : cs.head? = some x ↔ ds.head? = some x := by
  have uniform : ∀ y, isWordStart y = true → (y == x) = false := by
    intro y start
    rw [beq_eq_false_iff_ne]
    rintro rfl
    rw [start] at other
    cases other
  have same := alike.any_head uniform (beq_eq_false_iff_ne.mpr tick.symm)
  cases first : cs.head? <;> cases second : ds.head? <;> simp_all

/-- A number goes on where a text has the same head as one that it does not go on with only if that is changed. -/
theorem numberTail_eq_zero (alike : NamesAlike cs ds) (same : cs.head? = ds.head?) (ends : numberTail cs = 0) :
    numberTail ds = 0 := by
  cases alike with
  | nothing => rfl
  | kept c rest =>
    simp only [numberTail, ← rest.any_head isDigit_of_isWordStart rfl] at ends ⊢
    split at ends
    · cases ends
    · rename_i outside
      rw [if_neg outside]
  | @name _ _ old new cs ds before after =>
    cases before with
    | word valid => exact absurd ends (numberTail_word valid _)
    | quoted =>
      cases after with
      | word valid => exact absurd same.symm (valid.head?_ne ds)
      | quoted => rfl

theorem getLast?_of_getLast? (alike : NamesAlike cs ds) {x : Char} (other : endsName x = false)
    (last : ds.getLast? = some x) : cs.getLast? = some x := by
  induction alike with
  | nothing => cases last
  | @kept c cs ds rest ih =>
    cases ds with
    | nil =>
      rw [rest.eq_nil_iff.mpr rfl]
      exact last
    | cons d ds =>
      rw [List.getLast?_cons_cons] at last
      cases cs with
      | nil => cases rest.eq_nil_iff.mp rfl
      | cons e cs => rw [List.getLast?_cons_cons, ih last]
  | @name first second old new cs ds before after rest ih =>
    rw [List.getLast?_append] at last ⊢
    cases found : ds.getLast? with
    | none =>
      rw [found, Option.none_or] at last
      have ends := after.getLast?
      rw [last, Option.any_some, other] at ends
      cases ends
    | some y =>
      rw [found, Option.some_or] at last
      rw [ih (found.trans last), Option.some_or]

theorem all_iff (alike : NamesAlike cs ds) {p : Char → Bool}
    (outside : ∀ x, isWordStart x = true → p x = false) (tick : p '\x60' = false) :
    (∀ x ∈ cs, p x = true) ↔ ∀ x ∈ ds, p x = true := by
  induction alike with
  | nothing => rfl
  | kept c rest ih => rw [List.forall_mem_cons, List.forall_mem_cons, ih]
  | name before after rest ih =>
    obtain ⟨c, inside, solid⟩ := before.exists_solid outside tick
    obtain ⟨d, among, other⟩ := after.exists_solid outside tick
    constructor
    · intro all
      rw [all c (List.mem_append_left _ inside)] at solid
      cases solid
    · intro all
      rw [all d (List.mem_append_left _ among)] at other
      cases other

end NamesAlike

end CrossRef.Syntax
