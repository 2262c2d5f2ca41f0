import CrossRef.Proofs.NameSpellings

/-! When a line keeps its tokens while some of its identifiers get a new text. A word may always take the place of a
word, and a quoted name that of a quoted one. A name that loses its fences must not come to touch a word, and one that
gets fences must not touch a backtick, nor have an open fence before it that its own fences would close. Nothing else
can happen, so that the tokens are kept exactly if no two of them run into each other in one of these ways. -/

namespace CrossRef.Syntax

namespace Token

def takesWord (t : Token) : Bool :=
  t.kind == .word || t.kind == .keyword || t.kind == .number

theorem takesWord_iff {t : Token} :
    t.takesWord = true ↔ t.kind = .word ∨ t.kind = .keyword ∨ t.kind = .number := by
  simp [takesWord, or_assoc]

def LosesFences (chosen : Token → Bool) (kind : TokenKind) (t : Token) : Prop :=
  chosen t = true ∧ t.kind = .quoted ∧ kind = .word

def GetsFences (chosen : Token → Bool) (kind : TokenKind) (t : Token) : Prop :=
  chosen t = true ∧ t.kind = .word ∧ kind = .quoted

instance (chosen : Token → Bool) (kind : TokenKind) (t : Token) : Decidable (t.LosesFences chosen kind) :=
  inferInstanceAs (Decidable (_ ∧ _))

instance (chosen : Token → Bool) (kind : TokenKind) (t : Token) : Decidable (t.GetsFences chosen kind) :=
  inferInstanceAs (Decidable (_ ∧ _))

end Token

/-- Two tokens of a line, the second one behind the first, that do not run into each other when the chosen tokens get
a text of a kind. -/
structure StayApart (chosen : Token → Bool) (kind : TokenKind) (u t : Token) : Prop where
  /-- No word comes to stand directly behind a word or a number. -/
  word : u.touches t = true → t.LosesFences chosen kind → u.takesWord = false ∧ ¬u.LosesFences chosen kind
  /-- What stands directly behind a new word does not go on with it. -/
  behind : u.touches t = true → u.LosesFences chosen kind → t.text.toList.head?.any isWordChar = false
  /-- No fence comes to stand directly behind a backtick. -/
  backtick : u.touches t = true → t.GetsFences chosen kind → u.text ≠ "`"
  /-- No fence comes to stand behind an open one. -/
  fence : t.GetsFences chosen kind → u.text ≠ "``"

instance (chosen : Token → Bool) (kind : TokenKind) (u t : Token) : Decidable (StayApart chosen kind u t) :=
  decidable_of_iff
    ((u.touches t = true → t.LosesFences chosen kind → u.takesWord = false ∧ ¬u.LosesFences chosen kind) ∧
      (u.touches t = true → u.LosesFences chosen kind → t.text.toList.head?.any isWordChar = false) ∧
      (u.touches t = true → t.GetsFences chosen kind → u.text ≠ "`") ∧ (t.GetsFences chosen kind → u.text ≠ "``"))
    ⟨fun ⟨word, behind, backtick, fence⟩ => ⟨word, behind, backtick, fence⟩,
      fun apart => ⟨apart.word, apart.behind, apart.backtick, apart.fence⟩⟩

theorem stayApart_of_words {chosen : Token → Bool} {u t : Token} (first : chosen u = true → u.kind = .word)
    (second : chosen t = true → t.kind = .word) : StayApart chosen .word u t := by
  have keeps : ∀ {v : Token}, (chosen v = true → v.kind = .word) → ¬v.LosesFences chosen .word := by
    intro v word loses
    rw [Token.LosesFences, word loses.1] at loses
    cases loses.2.1
  refine ⟨fun _ loses => absurd loses (keeps second), fun _ loses => absurd loses (keeps first), ?_, ?_⟩
  · exact fun _ gets => nomatch gets.2.2
  · exact fun gets => nomatch gets.2.2

namespace Lexes

variable {line start column : Nat} {cs : List Char} {tokens : List Token}

theorem start_le (cut : Lexes line start column cs tokens) {t : Token} (member : t ∈ tokens) :
    start + column ≤ t.span.start := by
  obtain ⟨before, c, more, after, -, -, -, place, span, -⟩ := cut.place_of_mem member
  simp only [span, place]
  omega

private theorem head?_of_start (cut : Lexes line start column cs tokens) {t : Token} (member : t ∈ tokens)
    (first : t.span.start = start + column) : t.text.toList.head? = cs.head? := by
  obtain ⟨before, c, more, after, rfl, shown, -, place, span, -⟩ := cut.place_of_mem member
  cases before with
  | nil => rw [shown, String.toList_ofList, List.nil_append, List.head?_cons, List.head?_cons]
  | cons d before =>
    have := d.utf8Size_pos
    simp only [span, place, Text.size_cons] at first
    omega

private theorem exists_first (cut : Lexes line start column cs tokens) {x : Char} (head : cs.head? = some x)
    (solid : isGap x = false) : ∃ t ∈ tokens, t.span.start = start + column := by
  cases cut with
  | nothing => cases head
  | gap blank =>
    cases head
    rw [blank] at solid
    cases solid
  | token => exact ⟨_, List.mem_cons_self .., rfl⟩

end Lexes

theorem charsToFence?_append_eq_none_iff {front cs : List Char} :
    charsToFence? (front ++ cs) = none ↔ charsToFence? front = none ∧
      ¬(front.getLast? = some '\x60' ∧ cs.head? = some '\x60') ∧ charsToFence? cs = none := by
  induction front with
  | nil => simp [charsToFence?]
  | cons c front ih =>
    rw [List.cons_append, charsToFence?_cons_eq_none_iff, charsToFence?_cons_eq_none_iff, ih]
    cases front with
    | nil => simp [charsToFence?]
    | cons d front => simp [and_assoc]

private theorem isGap_of_isWordChar {c : Char} (inside : isWordChar c = true) : isGap c = false := by
  by_contra gap
  simp only [isGap, Bool.not_eq_false, Bool.or_eq_true, beq_iff_eq] at gap
  rcases gap with (((rfl | rfl) | rfl) | rfl) | rfl <;> cases inside

private theorem IsName.ne_backtick {kind : TokenKind} {text : List Char} (name : IsName kind text) :
    text ≠ ['\x60'] := by
  rintro rfl
  cases name with
  | word valid => cases valid.1

private theorem IsName.ne_fence {kind : TokenKind} {text : List Char} (name : IsName kind text) : text ≠ fence := by
  intro same
  cases name with
  | word valid =>
    rw [same] at valid
    cases valid.1
  | quoted found ends =>
    cases same
    cases ends

private theorem touches_cutToken {kind : TokenKind} {line start column : Nat} {text : List Char} {t : Token} :
    (cutToken kind line start column text).touches t = true ↔ t.span.start = start + (column + Text.size text) := by
  rw [Token.touches, beq_iff_eq, eq_comm, ← Nat.add_assoc]
  rfl

theorem Spelling.lexeme_iff {kind : TokenKind} {new : String} (spelling : Spelling kind new) {first : Char}
    {tail rest : List Char} (spelled : new.toList = first :: tail) :
    lexeme first (tail ++ rest) = (kind, tail.length) ↔ (kind = .word → rest.head?.any isWordChar = false) := by
  have name := spelling.name
  have free := spelling.free
  rw [← String.ofList_toList (s := new), spelled] at free
  rw [spelled] at name
  constructor
  · intro found word
    exact (endsBefore_of_lexeme found).word (.inl word)
  · exact name.lexeme free

private theorem Spelling.any_head_of_word {kind : TokenKind} {new : String} (spelling : Spelling kind new)
    (word : kind = .word) (rest : List Char) : (new.toList ++ rest).head?.any isWordChar = true := by
  have name := spelling.name
  generalize new.toList = text at name
  cases name with
  | word valid => exact valid.any_head (fun _ => isWordChar_of_isWordStart) rest
  | quoted => cases word

/-- The head of a line is only changed where a chosen token stands. -/
theorem RespellsNames.begins {chosen : Token → Bool} {new : String} {line start column : Nat} {cs ds : List Char}
    {tokens : List Token} (cut : RespellsNames chosen new line start column cs ds tokens) :
    (cs.head? = ds.head? ∧ ∀ t ∈ tokens, t.span.start = start + column → chosen t = false) ∨
      ∃ t ∈ tokens, t.span.start = start + column ∧ chosen t = true ∧ IsName t.kind t.text.toList ∧
        (∃ rest, cs = t.text.toList ++ rest) ∧ ∃ rest, ds = new.toList ++ rest := by
  cases cut with
  | nothing => exact .inl ⟨rfl, by simp⟩
  | @gap _ c _ _ _ blank rest =>
    refine .inl ⟨rfl, ?_⟩
    intro t member first
    have := c.utf8Size_pos
    have := rest.lexes.start_le member
    omega
  | @kept _ c more _ _ _ _ solid found other rest =>
    refine .inl ⟨rfl, ?_⟩
    intro t member first
    rcases List.mem_cons.mp member with rfl | later
    · exact other
    · have := c.utf8Size_pos
      have := rest.lexes.start_le later
      rw [Text.size_cons] at this
      omega
  | @renamed _ c more cs ds _ _ identifier found one rest =>
    have text : (String.ofList (c :: more)).toList = c :: more := String.toList_ofList
    refine .inr ⟨_, List.mem_cons_self .., rfl, one, ?_, ⟨cs, ?_⟩, ⟨ds, rfl⟩⟩
    · rw [cutToken, text]
      exact isName_of_lexeme found identifier
    · rw [cutToken, text, List.cons_append]

private theorem shapes_lexLine_iff {line start column : Nat} {c : Char} {more rest : List Char} {kind : TokenKind}
    {shapes : List (TokenKind × Nat × String)} (solid : isGap c = false) :
    (lexLine line start 0 column (c :: (more ++ rest))).map Token.shape =
        (kind, line, String.ofList (c :: more)) :: shapes ↔
      lexeme c (more ++ rest) = (kind, more.length) ∧
        (lexLine line start 0 (column + Text.size (c :: more)) rest).map Token.shape = shapes := by
  have step : ∀ {known}, lexeme c (more ++ rest) = (known, more.length) →
      lexLine line start 0 column (c :: (more ++ rest)) = cutToken known line start column (c :: more) ::
        lexLine line start 0 (column + Text.size (c :: more)) rest :=
    fun found => (Lexes.token solid found (lexes_lexLine ..)).lexLine_eq
  constructor
  · intro same
    have found : lexeme c (more ++ rest) = (kind, more.length) := by
      have fits := lexeme_le c (more ++ rest)
      rw [lexLine, if_neg (by simp [solid]), List.map_cons] at same
      obtain ⟨head, -⟩ := List.cons.inj same
      obtain ⟨known, -, text⟩ : (lexeme c (more ++ rest)).1 = kind ∧ line = line ∧
          String.ofList (c :: (more ++ rest).take (lexeme c (more ++ rest)).2) = String.ofList (c :: more) := by
        simpa [Token.shape] using head
      have taken := congrArg List.length (List.cons.inj (String.ofList_injective text)).2
      rw [List.length_take_of_le fits] at taken
      exact Prod.ext known taken
    rw [step found, List.map_cons] at same
    exact ⟨found, (List.cons.inj same).2⟩
  · rintro ⟨found, later⟩
    rw [step found, List.map_cons, later]
    rfl

namespace RespellsNames

variable {chosen : Token → Bool} {kind : TokenKind} {new : String} {line start column : Nat} {cs ds : List Char}
  {tokens : List Token}

/-- What a word may not follow is followed by one exactly if a name there loses its fences. -/
private theorem loses_iff (spelling : Spelling kind new) (cut : RespellsNames chosen new line start column cs ds tokens)
    {p : List Char → Prop} (same : cs.head? = ds.head? → p ds) (word : ∀ {word} rest, IsWord word → ¬p (word ++ rest))
    (quoted : ∀ rest, p ('\x60' :: '\x60' :: rest)) (ends : p cs) :
    p ds ↔ ∀ t ∈ tokens, t.span.start = start + column → ¬t.LosesFences chosen kind := by
  rcases cut.begins with ⟨heads, others⟩ | ⟨t, member, first, one, name, ⟨rest, rfl⟩, ⟨more, rfl⟩⟩
  · refine iff_of_true (same heads) fun t member first loses => ?_
    have one := loses.1
    rw [others t member first] at one
    cases one
  · have valid := spelling.name
    generalize new.toList = shown at valid
    cases valid with
    | quoted => exact iff_of_true (quoted _) fun _ _ _ loses => nomatch loses.2.2
    | word valid =>
      refine iff_of_false (word more valid) fun kept => kept t member first ⟨one, ?_, rfl⟩
      generalize t.text.toList = old at name ends
      generalize t.kind = known at name
      cases name with
      | quoted => rfl
      | word valid => exact absurd ends (word rest valid)

theorem word_iff (spelling : Spelling kind new) (cut : RespellsNames chosen new line start column cs ds tokens)
    (ends : cs.head?.any isWordChar = false) :
    ds.head?.any isWordChar = false ↔ ∀ t ∈ tokens, t.span.start = start + column → ¬t.LosesFences chosen kind := by
  refine cut.loses_iff (p := fun cs => cs.head?.any isWordChar = false) spelling (fun same => same ▸ ends) ?_
    (fun _ => rfl) ends
  intro word rest valid
  rw [valid.any_head fun _ => isWordChar_of_isWordStart]
  exact nofun

theorem number_iff (spelling : Spelling kind new) (cut : RespellsNames chosen new line start column cs ds tokens)
    (ends : numberTail cs = 0) :
    numberTail ds = 0 ↔ ∀ t ∈ tokens, t.span.start = start + column → ¬t.LosesFences chosen kind :=
  cut.loses_iff (p := fun cs => numberTail cs = 0) spelling
    (fun same => (cut.alike spelling).numberTail_eq_zero same ends) (fun rest valid => numberTail_word valid rest)
    (fun _ => rfl) ends

theorem backtick_iff (spelling : Spelling kind new) (cut : RespellsNames chosen new line start column cs ds tokens)
    (ends : cs.head? ≠ some '\x60') :
    ds.head? ≠ some '\x60' ↔ ∀ t ∈ tokens, t.span.start = start + column → ¬t.GetsFences chosen kind := by
  rcases cut.begins with ⟨heads, others⟩ | ⟨t, member, first, one, name, ⟨rest, rfl⟩, ⟨more, rfl⟩⟩
  · refine iff_of_true (heads ▸ ends) fun t member first gets => ?_
    have one := gets.1
    rw [others t member first] at one
    cases one
  · have valid := spelling.name
    generalize new.toList = shown at valid
    cases valid with
    | word valid => exact iff_of_true (valid.head?_ne more) fun _ _ _ gets => nomatch gets.2.2
    | quoted =>
      refine iff_of_false (fun other => other rfl) fun kept => kept t member first ⟨one, ?_, rfl⟩
      generalize t.text.toList = old at name ends
      generalize t.kind = known at name
      cases name with
      | word => rfl
      | quoted => exact absurd rfl ends

/-- Behind an open fence another one appears exactly if some word there gets fences. -/
theorem fence_iff (spelling : Spelling kind new) (cut : RespellsNames chosen new line start column cs ds tokens)
    (missing : charsToFence? cs = none) :
    charsToFence? ds = none ↔ ∀ t ∈ tokens, ¬t.GetsFences chosen kind := by
  induction cut with
  | nothing => simp [charsToFence?]
  | @gap _ c cs ds _ blank rest ih =>
    rw [charsToFence?_cons_eq_none_iff] at missing ⊢
    have solid : c ≠ '\x60' := by
      rintro rfl
      cases blank
    rw [ih missing.2]
    exact and_iff_right fun opens => solid opens.1
  | @kept _ c more cs ds tokens known solid found other rest ih =>
    rw [← List.cons_append, charsToFence?_append_eq_none_iff] at missing ⊢
    obtain ⟨inside, apart, later⟩ := missing
    rw [ih later, List.forall_mem_cons]
    constructor
    · rintro ⟨-, -, kept⟩
      refine ⟨fun gets => ?_, kept⟩
      have one := gets.1
      rw [other] at one
      cases one
    · rintro ⟨-, kept⟩
      refine ⟨inside, ?_, kept⟩
      rintro ⟨last, next⟩
      have single : cs.head? ≠ some '\x60' := fun next => apart ⟨last, next⟩
      exact (rest.backtick_iff spelling single).mpr (fun t member _ => kept t member) next
  | @renamed _ c more cs ds tokens known identifier found one rest ih =>
    have valid := spelling.name
    have name := isName_of_lexeme found identifier
    rw [← List.cons_append] at missing
    generalize c :: more = old at name missing one
    cases name with
    | quoted => cases missing
    | word word =>
      rw [charsToFence?_word word] at missing
      rw [List.forall_mem_cons]
      generalize new.toList = shown at valid
      cases valid with
      | word valid =>
        rw [charsToFence?_word valid, ih missing]
        refine (and_iff_right ?_).symm
        intro gets
        cases gets.2.2
      | quoted => exact iff_of_false (by simp [charsToFence?]) fun kept => kept.1 ⟨one, rfl, rfl⟩

/-- A token that keeps its text is found again exactly if it stays apart from all tokens behind it. -/
theorem kept_iff (spelling : Spelling kind new) {c : Char} {more : List Char} {known : TokenKind}
    (found : lexeme c (more ++ cs) = (known, more.length))
    (other : chosen (cutToken known line start column (c :: more)) = false)
    (rest : RespellsNames chosen new line start (column + Text.size (c :: more)) cs ds tokens) :
    lexeme c (more ++ ds) = (known, more.length) ↔
      ∀ t ∈ tokens, StayApart chosen kind (cutToken known line start column (c :: more)) t := by
  have before := endsBefore_of_lexeme found
  have alike := rest.alike spelling
  have text : ∀ shown, (cutToken known line start column (c :: more)).text = String.ofList shown → c :: more = shown :=
    fun _ => String.ofList_injective
  constructor
  · intro still t member
    have after := endsBefore_of_lexeme still
    have first : (cutToken known line start column (c :: more)).touches t = true →
        t.span.start = start + (column + Text.size (c :: more)) := fun touches => (touches_cutToken.mp touches)
    refine ⟨?_, fun _ loses => absurd loses.1 (by simp [other]), ?_, ?_⟩
    · intro touches loses
      refine ⟨?_, fun own => absurd own.1 (by simp [other])⟩
      by_contra takes
      rcases Token.takesWord_iff.mp (by simpa using takes) with word | word | number
      · exact (rest.word_iff spelling (before.word (.inl word))).mp (after.word (.inl word)) t member (first touches) loses
      · exact (rest.word_iff spelling (before.word (.inr word))).mp (after.word (.inr word)) t member (first touches) loses
      · exact (rest.number_iff spelling (before.number number)).mp (after.number number) t member (first touches) loses
    · intro touches gets same
      have shown := text ['\x60'] same
      exact (rest.backtick_iff spelling (before.backtick shown)).mp (after.backtick shown) t member (first touches) gets
    · intro gets same
      have shown := text Syntax.fence same
      exact (rest.fence_iff spelling (before.fence shown)).mp (after.fence shown) t member gets
  · intro apart
    refine lexeme_congr found alike.eq_nil_iff.mp (alike.head?_eq_some_iff rfl (by decide)).mpr ⟨?_, ?_, ?_, ?_⟩
    · intro word
      refine (rest.word_iff spelling (before.word word)).mpr fun t member first loses => ?_
      have free := ((apart t member).word (touches_cutToken.mpr first) loses).1
      rw [Token.takesWord_iff.mpr (word.imp_right .inl)] at free
      cases free
    · intro number
      refine (rest.number_iff spelling (before.number number)).mpr fun t member first loses => ?_
      have free := ((apart t member).word (touches_cutToken.mpr first) loses).1
      rw [Token.takesWord_iff.mpr (.inr (.inr number))] at free
      cases free
    · intro shown
      refine (rest.backtick_iff spelling (before.backtick shown)).mpr fun t member first gets => ?_
      exact (apart t member).backtick (touches_cutToken.mpr first) gets (congrArg String.ofList shown)
    · intro shown
      refine (rest.fence_iff spelling (before.fence shown)).mpr fun t member gets => ?_
      exact (apart t member).fence gets (congrArg String.ofList shown)

theorem renamed_iff (spelling : Spelling kind new) {c : Char} {more : List Char} {known : TokenKind}
    (identifier : known = .word ∨ known = .quoted) (found : lexeme c (more ++ cs) = (known, more.length))
    (one : chosen (cutToken known line start column (c :: more)) = true)
    (rest : RespellsNames chosen new line start (column + Text.size (c :: more)) cs ds tokens) :
    (kind = .word → ds.head?.any isWordChar = false) ↔
      ∀ t ∈ tokens, StayApart chosen kind (cutToken known line start column (c :: more)) t := by
  constructor
  · intro ends t member
    have name := isName_of_lexeme found identifier
    have text : ∀ shown, (cutToken known line start column (c :: more)).text = String.ofList shown → c :: more = shown :=
      fun _ => String.ofList_injective
    have stops : kind = .word → cs.head?.any isWordChar = false := by
      intro word
      have after := ends word
      rcases rest.begins with ⟨heads, -⟩ | ⟨-, -, -, -, -, -, ⟨more, rfl⟩⟩
      · rwa [heads]
      · rw [spelling.any_head_of_word word] at after
        cases after
    have first : (cutToken known line start column (c :: more)).touches t = true →
        t.span.start = start + (column + Text.size (c :: more)) := fun touches => (touches_cutToken.mp touches)
    refine ⟨?_, ?_, ?_, ?_⟩
    · intro touches loses
      have word := loses.2.2
      exact absurd loses ((rest.word_iff spelling (stops word)).mp (ends word) t member (first touches))
    · intro touches loses
      rw [rest.lexes.head?_of_start member (first touches)]
      exact stops loses.2.2
    · exact fun _ _ same => name.ne_backtick (text ['\x60'] same)
    · exact fun _ same => name.ne_fence (text Syntax.fence same)
  · intro apart word
    have stops : cs.head?.any isWordChar = false := by
      rcases identifier with rfl | rfl
      · exact (lexeme_word found).2.2
      · by_contra goes
        obtain ⟨x, head, inside⟩ := (Option.any_eq_true _ _).mp (by simpa using goes)
        obtain ⟨t, member, first⟩ := rest.lexes.exists_first head (isGap_of_isWordChar inside)
        have stays := (apart t member).behind (touches_cutToken.mpr first) ⟨one, rfl, word⟩
        rw [rest.lexes.head?_of_start member first, head, Option.any_some, inside] at stays
        cases stays
    refine (rest.word_iff spelling stops).mpr fun t member first loses => ?_
    obtain ⟨free, other⟩ := (apart t member).word (touches_cutToken.mpr first) loses
    rcases identifier with rfl | rfl
    · cases free
    · exact other ⟨one, rfl, word⟩

/-- The tokens of a line are kept exactly if each two of them stay apart. -/
theorem shapes_iff (spelling : Spelling kind new) (cut : RespellsNames chosen new line start column cs ds tokens)
    (shifted moved : Nat) :
    (lexLine line shifted 0 moved ds).map Token.shape = tokens.map (respell chosen kind new) ↔
      tokens.Pairwise (StayApart chosen kind) := by
  induction cut generalizing moved with
  | nothing => simp [lexLine]
  | gap blank rest ih =>
    rw [lexLine, if_pos blank]
    exact ih _
  | @kept _ c more _ _ _ _ solid found other rest ih =>
    rw [List.map_cons, respell, if_neg (by simp [other]), List.pairwise_cons, ← rest.kept_iff spelling found other,
      ← ih (moved + Text.size (c :: more))]
    exact shapes_lexLine_iff solid
  | renamed identifier found one rest ih =>
    obtain ⟨first, tail, spelled⟩ := List.exists_cons_of_ne_nil spelling.name.ne_nil
    have solid : isGap first = false := (spelled ▸ spelling.name).isGap_eq_false
    have text : new = String.ofList (first :: tail) := by rw [← spelled, String.ofList_toList]
    rw [List.map_cons, respell, if_pos one, List.pairwise_cons, ← rest.renamed_iff spelling identifier found one,
      ← spelling.lexeme_iff spelled, ← ih (moved + Text.size (first :: tail)), spelled, text]
    exact shapes_lexLine_iff solid

end RespellsNames

end CrossRef.Syntax
