import CrossRef.Proofs.NamesAlike
import CrossRef.Proofs.SimultaneousReplacement

/-! A line in which some identifiers have a new text. All else stays as it is, gaps and the texts of the other
tokens. -/

namespace CrossRef.Syntax

/-- A text that can take the place of an identifier. -/
structure Spelling (kind : TokenKind) (new : String) : Prop where
  name : IsName kind new.toList
  free : isKeyword new = false
  inside : '\n' ∉ new.toList

/-- What a token shows, wherever on its line it stands. -/
def Token.shape (t : Token) : TokenKind × Nat × String :=
  (t.kind, t.line, t.text)

def respell (chosen : Token → Bool) (kind : TokenKind) (new : String) (t : Token) : TokenKind × Nat × String :=
  if chosen t then (kind, t.line, new) else t.shape

/-- A line cut into tokens, beside the line in which the chosen ones, which are identifiers, have a new text. -/
inductive RespellsNames (chosen : Token → Bool) (new : String) (line start : Nat) :
    (column : Nat) → List Char → List Char → List Token → Prop where
  | nothing (column : Nat) : RespellsNames chosen new line start column [] [] []
  | gap {column : Nat} {c : Char} {cs ds : List Char} {tokens : List Token} (blank : isGap c = true)
      (rest : RespellsNames chosen new line start (column + c.utf8Size) cs ds tokens) :
      RespellsNames chosen new line start column (c :: cs) (c :: ds) tokens
  | kept {column : Nat} {c : Char} {more cs ds : List Char} {tokens : List Token} {known : TokenKind}
      (solid : isGap c = false) (found : lexeme c (more ++ cs) = (known, more.length))
      (other : chosen (cutToken known line start column (c :: more)) = false)
      (rest : RespellsNames chosen new line start (column + Text.size (c :: more)) cs ds tokens) :
      RespellsNames chosen new line start column (c :: (more ++ cs)) (c :: (more ++ ds))
        (cutToken known line start column (c :: more) :: tokens)
  | renamed {column : Nat} {c : Char} {more cs ds : List Char} {tokens : List Token} {known : TokenKind}
      (identifier : known = .word ∨ known = .quoted) (found : lexeme c (more ++ cs) = (known, more.length))
      (one : chosen (cutToken known line start column (c :: more)) = true)
      (rest : RespellsNames chosen new line start (column + Text.size (c :: more)) cs ds tokens) :
      RespellsNames chosen new line start column (c :: (more ++ cs)) (new.toList ++ ds)
        (cutToken known line start column (c :: more) :: tokens)

namespace RespellsNames

variable {chosen : Token → Bool} {kind : TokenKind} {new : String} {line start column : Nat} {cs ds : List Char}
  {tokens : List Token}

theorem alike (spelling : Spelling kind new) (cut : RespellsNames chosen new line start column cs ds tokens) :
    NamesAlike cs ds := by
  induction cut with
  | nothing => exact .nothing
  | gap _ _ ih => exact .kept _ ih
  | @kept _ c more _ _ _ _ _ _ _ _ ih => exact .append (c :: more) ih
  | renamed identifier found _ _ ih => exact .name (isName_of_lexeme found identifier) spelling.name ih

theorem lexes (cut : RespellsNames chosen new line start column cs ds tokens) : Lexes line start column cs tokens := by
  induction cut with
  | nothing column => exact .nothing column
  | gap blank _ ih => exact .gap blank ih
  | kept solid found _ _ ih => exact .token solid found ih
  | renamed identifier found _ _ ih =>
    exact .token (isName_of_lexeme found identifier).isGap_eq_false found ih

theorem replaced (cut : RespellsNames chosen new line start column cs ds tokens)
    {spans : List Span} {tail changed : List Char}
    (rest : Rename.ReplacedFrom (start + column + Text.size cs) new spans (String.ofList tail)
      (String.ofList changed)) :
    Rename.ReplacedFrom (start + column) new ((tokens.filter chosen).map (·.span) ++ spans)
      (String.ofList (cs ++ tail)) (String.ofList (ds ++ changed)) := by
  induction cut with
  | nothing => exact rest
  | @gap column c cs ds tokens blank _ ih =>
    have later := ih (by rwa [← Nat.add_assoc, Nat.add_assoc (start + column), ← Text.size_cons])
    have single : Text.size [c] = c.utf8Size := by simp
    rw [← Nat.add_assoc, ← single] at later
    exact later.behind
  | @kept column c more cs ds tokens known solid found other _ ih =>
    rw [← List.cons_append, ← List.cons_append, List.append_assoc, List.append_assoc,
      List.filter_cons_of_neg (by simp [other])]
    refine Rename.ReplacedFrom.behind ?_
    rw [Nat.add_assoc]
    exact ih (by rwa [← Nat.add_assoc, Nat.add_assoc (start + column), ← Text.size_append])
  | @renamed column c more cs ds tokens known identifier found one _ ih =>
    rw [← List.cons_append, List.append_assoc, List.append_assoc, List.filter_cons_of_pos one]
    refine Rename.ReplacedFrom.renamed ?_
    rw [Nat.add_assoc]
    exact ih (by rwa [← Nat.add_assoc, Nat.add_assoc (start + column), ← Text.size_append])

theorem mem_of_mem (cut : RespellsNames chosen new line start column cs ds tokens) {x : Char}
    (member : x ∈ ds) : x ∈ cs ∨ x ∈ new.toList := by
  induction cut with
  | nothing => cases member
  | gap _ _ ih =>
    rcases List.mem_cons.mp member with rfl | inside
    · exact .inl (List.mem_cons_self ..)
    · exact (ih inside).imp_left (List.mem_cons_of_mem _)
  | kept _ _ _ _ ih =>
    rw [← List.cons_append, List.mem_append] at member ⊢
    rcases member with here | inside
    · exact .inl (.inl here)
    · exact (ih inside).imp_left .inr
  | renamed _ _ _ _ ih =>
    rcases List.mem_append.mp member with here | inside
    · exact .inr here
    · rw [← List.cons_append, List.mem_append]
      exact (ih inside).imp_left .inr

end RespellsNames

theorem exists_respellsNames (chosen : Token → Bool) (new : String) {line start column : Nat} {cs : List Char}
    {tokens : List Token} (cut : Lexes line start column cs tokens)
    (identifiers : ∀ t ∈ tokens, chosen t = true → t.kind = .word ∨ t.kind = .quoted) :
    ∃ ds, RespellsNames chosen new line start column cs ds tokens := by
  induction cut with
  | nothing column => exact ⟨[], .nothing column⟩
  | @gap column c cs tokens blank _ ih =>
    obtain ⟨ds, rest⟩ := ih identifiers
    exact ⟨c :: ds, .gap blank rest⟩
  | @token column c more cs tokens known solid found _ ih =>
    obtain ⟨ds, rest⟩ := ih fun t inside => identifiers t (List.mem_cons_of_mem _ inside)
    cases one : chosen (cutToken known line start column (c :: more)) with
    | false => exact ⟨_, .kept solid found one rest⟩
    | true => exact ⟨_, .renamed (identifiers _ (List.mem_cons_self ..) one) found one rest⟩

end CrossRef.Syntax
