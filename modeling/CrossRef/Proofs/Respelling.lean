import CrossRef.Proofs.DirectiveLines

/-! Lexing a text in which some words are spelled in another way. The new text has the same tokens in the same
order: those that were chosen have the new spelling, the others their own, and none comes to touch another one
that it did not touch before. -/

namespace CrossRef.Syntax

structure Respelled (chosen : Token → Bool) (new : String) (t u : Token) : Prop where
  kind : u.kind = t.kind
  line : u.line = t.line
  column : u.column = 0 ↔ t.column = 0
  renamed : chosen t = true → t.kind = .word ∧ u.text = new
  kept : chosen t = false → u.text = t.text
  filled : 0 < t.span.length ∧ 0 < u.span.length

/-- A token behind two ends, before and after, that it touches both or neither. -/
def Follows (stop moved : Nat) (x : Token × Token) : Prop :=
  stop ≤ x.1.span.start ∧ moved ≤ x.2.span.start ∧ (stop = x.1.span.start ↔ moved = x.2.span.start)

/-- Tokens that keep their order, and touch each other if they did before. -/
def InStep (pairs : List (Token × Token)) : Prop :=
  pairs.Pairwise fun x y => Follows x.1.span.stop x.2.span.stop y

/-- A line cut into tokens, beside the line in which the chosen ones have a new text. -/
inductive Respells (chosen : Token → Bool) (new : String) (line start shifted : Nat) :
    (column moved : Nat) → List Char → List Char → List (Token × Token) → Prop where
  | nothing (column moved : Nat) : Respells chosen new line start shifted column moved [] [] []
  | gap {column moved : Nat} {c : Char} {cs ds : List Char} {pairs : List (Token × Token)} (blank : isGap c = true)
      (rest : Respells chosen new line start shifted (column + c.utf8Size) (moved + c.utf8Size) cs ds pairs) :
      Respells chosen new line start shifted column moved (c :: cs) (c :: ds) pairs
  | kept {column moved : Nat} {c : Char} {more cs ds : List Char} {pairs : List (Token × Token)} {kind : TokenKind}
      (solid : isGap c = false) (found : lexeme c (more ++ cs) = (kind, more.length))
      (other : chosen (cutToken kind line start column (c :: more)) = false)
      (rest : Respells chosen new line start shifted (column + Text.size (c :: more))
        (moved + Text.size (c :: more)) cs ds pairs) :
      Respells chosen new line start shifted column moved (c :: (more ++ cs)) (c :: (more ++ ds))
        ((cutToken kind line start column (c :: more), cutToken kind line shifted moved (c :: more)) :: pairs)
  | renamed {column moved : Nat} {c : Char} {more cs ds : List Char} {pairs : List (Token × Token)}
      (found : lexeme c (more ++ cs) = (.word, more.length))
      (one : chosen (cutToken .word line start column (c :: more)) = true)
      (rest : Respells chosen new line start shifted (column + Text.size (c :: more))
        (moved + Text.size new.toList) cs ds pairs) :
      Respells chosen new line start shifted column moved (c :: (more ++ cs)) (new.toList ++ ds)
        ((cutToken .word line start column (c :: more), cutToken .word line shifted moved new.toList) :: pairs)

/-- A text that can take the place of an identifier without fences. -/
structure PlainName (new : String) : Prop where
  word : IsWord new.toList
  free : isKeyword new = false

private theorem size_pos (c : Char) (cs : List Char) : 0 < Text.size (c :: cs) := by
  have := c.utf8Size_pos
  rw [Text.size_cons]
  omega

theorem PlainName.spelled {new : String} (plain : PlainName new) :
    ∃ c more, new.toList = c :: more ∧ IsWord (c :: more) := by
  have word := plain.word
  cases same : new.toList with
  | nil =>
    rw [same] at word
    cases word
  | cons c more => exact ⟨c, more, rfl, same ▸ word⟩

private theorem PlainName.size_pos {new : String} (plain : PlainName new) : 0 < Text.size new.toList := by
  obtain ⟨c, more, same, -⟩ := plain.spelled
  exact same ▸ Syntax.size_pos c more

theorem PlainName.spelling {new : String} (plain : PlainName new) : Spelling .word new := by
  refine ⟨.word plain.word, plain.free, ?_⟩
  intro member
  cases plain.word.all _ member

namespace Respells

variable {chosen : Token → Bool} {new : String} {line start shifted column moved : Nat} {cs ds : List Char}
  {pairs : List (Token × Token)}

theorem names (cut : Respells chosen new line start shifted column moved cs ds pairs) :
    RespellsNames chosen new line start column cs ds (pairs.map (·.1)) := by
  induction cut with
  | nothing column => exact .nothing column
  | gap blank _ ih => exact .gap blank ih
  | kept solid found one _ ih => exact .kept solid found one ih
  | renamed found one _ ih => exact .renamed (.inl rfl) found one ih

private theorem words (cut : Respells chosen new line start shifted column moved cs ds pairs) :
    ∀ t ∈ pairs.map (·.1), chosen t = true → t.kind = .word := by
  induction cut with
  | nothing => simp
  | gap _ _ ih => exact ih
  | kept _ _ other _ ih =>
    refine List.forall_mem_cons.mpr ⟨fun one => ?_, ih⟩
    rw [other] at one
    cases one
  | renamed _ _ _ ih => exact List.forall_mem_cons.mpr ⟨fun _ => rfl, ih⟩

theorem stayApart (cut : Respells chosen new line start shifted column moved cs ds pairs) :
    (pairs.map (·.1)).Pairwise (StayApart chosen .word) :=
  List.pairwise_of_forall_mem_list fun u first t second => stayApart_of_words (cut.words u first) (cut.words t second)

theorem lexes_old (cut : Respells chosen new line start shifted column moved cs ds pairs) :
    Lexes line start column cs (pairs.map (·.1)) := by
  induction cut with
  | nothing => exact .nothing _
  | gap blank _ ih => exact .gap blank ih
  | kept solid found _ _ ih => exact .token solid found ih
  | renamed found _ _ ih => exact .token (isGap_of_isWordStart (lexeme_word found).1) found ih

theorem lexes_new (plain : PlainName new) (cut : Respells chosen new line start shifted column moved cs ds pairs) :
    Lexes line shifted moved ds (pairs.map (·.2)) := by
  induction cut with
  | nothing => exact .nothing _
  | gap blank _ ih => exact .gap blank ih
  | kept solid found other rest ih =>
    have still := (rest.names.kept_iff plain.spelling found other).mpr
      fun t member => stayApart_of_words (fun one => nomatch other.symm.trans one) (rest.words t member)
    exact .token solid still ih
  | @renamed column moved c more cs ds pairs found one rest ih =>
    have ends := (rest.names.renamed_iff plain.spelling (.inl rfl) found one).mpr
      (fun t member => stayApart_of_words (fun _ => rfl) (rest.words t member)) rfl
    have free := plain.free
    obtain ⟨first, more, spelled, word⟩ := plain.spelled
    rw [← String.ofList_toList (s := new), spelled] at free
    rw [spelled] at ih ⊢
    exact .token (isGap_of_isWordStart word.1) (lexeme_of_isWord word free ends) ih

theorem respelled (plain : PlainName new) (cut : Respells chosen new line start shifted column moved cs ds pairs)
    (begins : moved = 0 ↔ column = 0) : ∀ x ∈ pairs, Respelled chosen new x.1 x.2 := by
  have newSize := plain.size_pos
  induction cut with
  | nothing => simp
  | @gap column moved c cs ds pairs blank rest ih =>
    have := c.utf8Size_pos
    exact ih (by omega)
  | @kept column moved c more cs ds pairs kind solid found other rest ih =>
    have size := size_pos c more
    intro x member
    rcases List.mem_cons.mp member with rfl | later
    · refine ⟨rfl, rfl, begins, ?_, fun _ => rfl, size, size⟩
      intro one
      rw [other] at one
      cases one
    · exact ih (by omega) x later
  | @renamed column moved c more cs ds pairs found one rest ih =>
    have size := size_pos c more
    intro x member
    rcases List.mem_cons.mp member with rfl | later
    · refine ⟨rfl, rfl, begins, fun _ => ⟨rfl, String.ofList_toList⟩, ?_, size, newSize⟩
      intro other
      rw [one] at other
      cases other
    · exact ih (by omega) x later

theorem follows (plain : PlainName new) (cut : Respells chosen new line start shifted column moved cs ds pairs) :
    ∀ x ∈ pairs, Follows (start + column) (shifted + moved) x := by
  have newSize := plain.size_pos
  induction cut with
  | nothing => simp
  | @gap column moved c cs ds pairs blank rest ih =>
    intro x member
    have := c.utf8Size_pos
    obtain ⟨first, second, -⟩ := ih x member
    exact ⟨by omega, by omega, by omega⟩
  | @kept column moved c more cs ds pairs kind solid found other rest ih =>
    intro x member
    have size := size_pos c more
    rcases List.mem_cons.mp member with rfl | later
    · exact ⟨Nat.le_refl _, Nat.le_refl _, by simp [cutToken]⟩
    · obtain ⟨first, second, -⟩ := ih x later
      exact ⟨by omega, by omega, by omega⟩
  | @renamed column moved c more cs ds pairs found one rest ih =>
    intro x member
    have size := size_pos c more
    rcases List.mem_cons.mp member with rfl | later
    · exact ⟨Nat.le_refl _, Nat.le_refl _, by simp [cutToken]⟩
    · obtain ⟨first, second, -⟩ := ih x later
      exact ⟨by omega, by omega, by omega⟩

theorem inStep (plain : PlainName new) (cut : Respells chosen new line start shifted column moved cs ds pairs) :
    InStep pairs := by
  induction cut with
  | nothing => exact List.Pairwise.nil
  | gap _ _ ih => exact ih
  | kept _ _ _ rest ih =>
    refine List.pairwise_cons.mpr ⟨fun x later => ?_, ih⟩
    have behind := rest.follows plain x later
    rwa [← Nat.add_assoc, ← Nat.add_assoc] at behind
  | renamed _ _ rest ih =>
    refine List.pairwise_cons.mpr ⟨fun x later => ?_, ih⟩
    have behind := rest.follows plain x later
    rwa [← Nat.add_assoc, ← Nat.add_assoc] at behind

/-- The new line has the new text in place of the chosen tokens, and may go on. -/
theorem replaced (cut : Respells chosen new line start shifted column moved cs ds pairs) {spans : List Span}
    {tail changed : List Char}
    (rest : Rename.ReplacedFrom (start + column + Text.size cs) new spans (String.ofList tail)
      (String.ofList changed)) :
    Rename.ReplacedFrom (start + column) new (((pairs.map (·.1)).filter chosen).map (·.span) ++ spans)
      (String.ofList (cs ++ tail)) (String.ofList (ds ++ changed)) := by
  induction cut with
  | nothing => exact rest
  | @gap column moved c cs ds pairs blank _ ih =>
    have later := ih (by rwa [← Nat.add_assoc, Nat.add_assoc (start + column), ← Text.size_cons])
    have single : Text.size [c] = c.utf8Size := by simp
    rw [← Nat.add_assoc, ← single] at later
    exact later.behind
  | @kept column moved c more cs ds pairs kind solid found other _ ih =>
    rw [← List.cons_append, ← List.cons_append, List.append_assoc, List.append_assoc, List.map_cons,
      List.filter_cons_of_neg (by simp [other])]
    refine Rename.ReplacedFrom.behind ?_
    rw [Nat.add_assoc]
    exact ih (by rwa [← Nat.add_assoc, Nat.add_assoc (start + column), ← Text.size_append])
  | @renamed column moved c more cs ds pairs found one _ ih =>
    rw [← List.cons_append, List.append_assoc, List.append_assoc, List.map_cons, List.filter_cons_of_pos one]
    refine Rename.ReplacedFrom.renamed ?_
    rw [Nat.add_assoc]
    exact ih (by rwa [← Nat.add_assoc, Nat.add_assoc (start + column), ← Text.size_append])

end Respells

theorem exists_respells (chosen : Token → Bool) (new : String) (line start shifted : Nat) {column : Nat}
    {cs : List Char} {tokens : List Token} (cut : Lexes line start column cs tokens)
    (words : ∀ t ∈ tokens, chosen t = true → t.kind = .word) (moved : Nat) :
    ∃ ds pairs, Respells chosen new line start shifted column moved cs ds pairs ∧ pairs.map (·.1) = tokens := by
  induction cut generalizing moved with
  | nothing column => exact ⟨[], [], .nothing column moved, rfl⟩
  | @gap column c cs tokens blank _ ih =>
    obtain ⟨ds, pairs, rest, same⟩ := ih words (moved + c.utf8Size)
    exact ⟨c :: ds, pairs, .gap blank rest, same⟩
  | @token column c more cs tokens kind solid found _ ih =>
    have later := ih fun t inside => words t (List.mem_cons_of_mem _ inside)
    cases one : chosen (cutToken kind line start column (c :: more)) with
    | false =>
      obtain ⟨ds, pairs, rest, rfl⟩ := later (moved + Text.size (c :: more))
      exact ⟨_, _, .kept solid found one rest, rfl⟩
    | true =>
      obtain rfl : kind = .word := words _ (List.mem_cons_self ..) one
      obtain ⟨ds, pairs, rest, rfl⟩ := later (moved + Text.size new.toList)
      exact ⟨_, _, .renamed found one rest, rfl⟩

end CrossRef.Syntax
