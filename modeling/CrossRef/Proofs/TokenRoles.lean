import CrossRef.Proofs.ModuleDeclarations

/-! What the reader makes of a token, said from the tokens around it. An identifier that binds nothing is known by the
token before it and the one behind. What the reader is in the middle of was opened by a keyword before. -/

namespace CrossRef.Check
open Syntax

section places

private theorem getLast?_cons_or (first : Token) (passed : List Token) (previous : Option Token) :
    (first :: passed).getLast?.or previous = passed.getLast?.or (some first) := by
  rw [List.getLast?_cons]
  cases passed.getLast? <;> rfl

theorem stateBehind_concat (state : ReaderState) (previous : Option Token) (passed : List Token) (t : Token)
    (more : List Token) :
    stateBehind state previous (passed ++ [t]) more =
      (read (stateBehind state previous passed (t :: more)) (passed.getLast?.or previous) t more).2 := by
  induction passed generalizing state previous with
  | nil => rfl
  | cons first passed ih =>
    rw [List.cons_append, stateBehind, ih, getLast?_cons_or, stateBehind, List.append_assoc]
    rfl

theorem mem_rolesFrom (state : ReaderState) (previous : Option Token) (front : List Token) (t : Token)
    (back : List Token) :
    (t, (read (stateBehind state previous front (t :: back)) (front.getLast?.or previous) t back).1) ∈
      rolesFrom state previous (front ++ t :: back) := by
  induction front generalizing state previous with
  | nil => exact List.mem_cons_self ..
  | cons first front ih =>
    rw [getLast?_cons_or]
    exact List.mem_cons_of_mem _ (ih ..)

variable {text : String} {defines : List String} {t : Token} {role : Role} {front back : List Token}

/-- The role of a token is what the reader makes of it behind the tokens before it. -/
theorem role_at_split (whole : code (lex text defines).tokens = front ++ t :: back) :
    (t, (read (stateBehind ⟨false, .plain⟩ none front (t :: back)) front.getLast? t back).1) ∈
      roles (lex text defines).tokens := by
  have member := mem_rolesFrom ⟨false, .plain⟩ none front t back
  rw [Option.or_none] at member
  rwa [roles, show (lex text defines).tokens.filter _ = _ from whole]

theorem split_of_role (plays : (t, role) ∈ roles (lex text defines).tokens) :
    ∃ front back, code (lex text defines).tokens = front ++ t :: back ∧
      role = (read (stateBehind ⟨false, .plain⟩ none front (t :: back)) front.getLast? t back).1 := by
  have listed : t ∈ code (lex text defines).tokens := by
    rw [code, ← map_fst_rolesFrom ⟨false, .plain⟩ none (List.filter _ _)]
    exact List.mem_map_of_mem plays
  obtain ⟨front, back, whole⟩ := List.append_of_mem listed
  exact ⟨front, back, whole, role_unique plays (role_at_split whole)⟩

end places

section identifiers

variable {inAttribute : Bool} {previous : Option Token} {t : Token} {rest : List Token}

theorem mem_code_of_identifier {tokens : List Token} (member : t ∈ tokens) (named : t.isIdentifier = true) :
    t ∈ code tokens := by
  refine List.mem_filter.mpr ⟨member, ?_⟩
  rw [bne_iff_ne]
  intro comment
  rw [Token.isIdentifier, comment] at named
  cases named

theorem readPlain_identifier (named : t.isIdentifier = true) :
    readPlain inAttribute previous t rest =
      (referenceRole inAttribute previous t rest, ⟨inAttribute, .plain⟩) := by
  have word : ∀ word, t.isKeyword word = false := fun word => isKeyword_of_identifier named word
  have sign : ∀ sign, t.isPunct sign = false := by
    intro sign
    apply isPunct_of_kind
    intro other
    rw [Token.isIdentifier, other] at named
    cases named
  simp [readPlain, word, isPair, sign, named]

theorem read_identifier (state : ReaderState) (previous : Option Token) (rest : List Token)
    (named : t.isIdentifier = true) :
    (∃ kind access isLocal, (read state previous t rest).1 = .binder kind access isLocal) ∨
      ∃ inAttribute, (read state previous t rest).1 = referenceRole inAttribute previous t rest := by
  have plain : (readPlain state.inAttribute previous t rest).1 = referenceRole state.inAttribute previous t rest := by
    rw [readPlain_identifier named]
  have parameter : (∃ kind access isLocal, parameterRole previous t rest = .binder kind access isLocal) ∨
      ∃ inAttribute, parameterRole previous t rest = referenceRole inAttribute previous t rest := by
    rw [parameterRole, named]
    split_ifs
    · cases ‹(!true) = true›
    · exact .inr ⟨_, rfl⟩
    · exact .inl ⟨_, _, _, rfl⟩
  obtain ⟨inside, mode⟩ := state
  cases mode with
  | plain => exact .inr ⟨_, plain⟩
  | header isType isTop access =>
    obtain ⟨kind, _, role, -⟩ := @read_name previous t rest inside isType isTop access named
    exact .inl ⟨kind, access, !isTop, by rw [role]⟩
  | parameters line =>
    simp only [read]
    split
    · exact .inr ⟨_, plain⟩
    · exact parameter
  | lambda =>
    simp only [read]
    split
    · exact .inr ⟨_, plain⟩
    · exact parameter

/-- An identifier that binds nothing qualifies another one if a point follows; else it refers to something. Only behind
a colon, and outside of attributes, it is an annotation. -/
theorem referenceRole_cases (inAttribute : Bool) (previous : Option Token) (t : Token) (rest : List Token) :
    (rest.head?.any fun next => next.kind == .dot && t.touches next) = true ∧
        referenceRole inAttribute previous t rest = .qualifier ∨
      (rest.head?.any fun next => next.kind == .dot && t.touches next) = false ∧
        ∃ kind, referenceRole inAttribute previous t rest = .reference kind ∧
          (kind = .inType ↔ kind ≠ .inAttribute ∧ previous.any (·.isPunct ":") = true) := by
  unfold referenceRole
  split_ifs with followed attributed annotated alternative
  · exact .inl ⟨followed, rfl⟩
  · exact .inr ⟨by simpa using followed, _, rfl, by simp⟩
  · exact .inr ⟨by simpa using followed, _, rfl, by simp [annotated]⟩
  · exact .inr ⟨by simpa using followed, _, rfl, by simp [annotated]⟩
  · exact .inr ⟨by simpa using followed, _, rfl, by simp [annotated]⟩

end identifiers

def IsQualifier (tokens : List Token) (t : Token) : Prop :=
  ∃ dot ∈ tokens, dot.kind = .dot ∧ t.touches dot = true

instance (tokens : List Token) (t : Token) : Decidable (IsQualifier tokens t) :=
  inferInstanceAs (Decidable (∃ dot ∈ tokens, _))

/-- Tokens never overlap, so a point that touches a token is the next one. -/
theorem isQualifier_iff {text : String} {defines : List String} {t : Token} {front back : List Token}
    (whole : code (lex text defines).tokens = front ++ t :: back) :
    (back.head?.any fun next => next.kind == .dot && t.touches next) = true ↔
      IsQualifier (lex text defines).tokens t := by
  have apart : (front ++ t :: back).Pairwise fun t u => t.span.stop ≤ u.span.start := by
    rw [← whole]
    exact ((apart_allTokens text).sublist (lex_sublist text defines)).filter _
  have filled : ∀ u ∈ front ++ t :: back, 0 < u.span.length := by
    intro u inside
    rw [← whole] at inside
    exact filled_of_mem_allTokens ((lex_sublist text defines).subset (List.mem_of_mem_filter inside))
  constructor
  · intro followed
    obtain ⟨dot, next, point⟩ := (Option.any_eq_true ..).mp followed
    rw [Bool.and_eq_true, beq_iff_eq] at point
    have listed : dot ∈ code (lex text defines).tokens := by
      rw [whole]
      exact List.mem_append_right _ (List.mem_cons_of_mem _ (List.mem_of_mem_head? next))
    exact ⟨dot, List.mem_of_mem_filter listed, point⟩
  · rintro ⟨dot, listed, point, touching⟩
    have meets : t.span.stop = dot.span.start := beq_iff_eq.mp touching
    have inside : dot ∈ front ++ t :: back := by
      rw [← whole]
      exact List.mem_filter.mpr ⟨listed, by simp [point]⟩
    obtain ⟨-, later, earlier⟩ := List.pairwise_append.mp apart
    obtain ⟨behind, later⟩ := List.pairwise_cons.mp later
    have here := filled t (by simp)
    simp only [Span.stop] at meets behind later earlier
    rcases List.mem_append.mp inside with before | inside
    · have := earlier dot before t (List.mem_cons_self ..)
      omega
    · rcases List.mem_cons.mp inside with rfl | inside
      · omega
      · cases back with
        | nil => cases inside
        | cons next back =>
          have there := filled next (by simp)
          have first := behind next (List.mem_cons_self ..)
          rcases List.mem_cons.mp inside with rfl | inside
          · simpa [point] using touching
          · have := (List.pairwise_cons.mp later).1 dot inside
            omega

section references

theorem mem_references {a : Analysis} {r : Reference} : r ∈ a.references ↔ .reference r ∈ a.marks := by
  rw [Analysis.references, List.mem_filterMap]
  constructor
  · rintro ⟨m, member, found⟩
    cases m with
    | binding b => cases found
    | reference other =>
      cases found
      exact member
  · intro member
    exact ⟨_, member, rfl⟩

private theorem reference_mem_marksFrom {path : Path} {owner : String} {seen : Tally (String × String)}
    {items : List ScopedToken} {r : Reference} :
    .reference r ∈ marksFrom path owner seen items ↔
      (r.token, .reference r.kind) ∈ items.map fun x => (x.token, x.role) := by
  induction items generalizing owner seen with
  | nil => simp [marksFrom]
  | cons x rest ih =>
    obtain ⟨t, role, scopeEnd⟩ := x
    cases role with
    | binder kind access isLocal => simp [marksFrom, ih]
    | reference kind =>
      obtain ⟨token, occurrence⟩ := r
      simp [marksFrom, ih]
    | qualifier | other => simp [marksFrom, ih]

theorem mem_references_iff {path : Path} {text : String} {defines : List String} {r : Reference} :
    r ∈ (Analysis.ofText path text defines).references ↔
      (r.token, .reference r.kind) ∈ roles (lex text defines).tokens := by
  rw [mem_references, ← map_withScopes (roles _)]
  exact reference_mem_marksFrom

private theorem map_filterMap_sublist {α β κ : Type} {f : α → Option β} {p : β → κ} {q : α → κ}
    (same : ∀ x y, f x = some y → p y = q x) (l : List α) : ((l.filterMap f).map p).Sublist (l.map q) := by
  induction l with
  | nil => exact .slnil
  | cons x rest ih =>
    cases found : f x with
    | none =>
      rw [List.filterMap_cons_none found]
      exact ih.cons _
    | some y =>
      rw [List.filterMap_cons_some found, List.map_cons, List.map_cons, same x y found]
      exact ih.cons_cons _

theorem map_token_bindings (a : Analysis) : (a.bindings.map (·.token)).Sublist (a.marks.map Mark.token) := by
  apply map_filterMap_sublist
  intro m b found
  cases m <;> cases found
  rfl

theorem map_token_references (a : Analysis) : (a.references.map (·.token)).Sublist (a.marks.map Mark.token) := by
  apply map_filterMap_sublist
  intro m r found
  cases m <;> cases found
  rfl

end references

section openings

/-- Some tokens end in a `let` or `type` and words behind it, so that the name comes next. -/
def EndsInHeader (isType isTop : Bool) (passed : List Token) : Prop :=
  ∃ before keyword modifiers, passed = before ++ keyword :: modifiers ∧
    keyword.isKeyword (if isType then "type" else "let") = true ∧ (keyword.column == 0) = isTop ∧
    ∀ t ∈ modifiers, isModifier t = true

/-- Some tokens end in a `let`, its name and others on the line of the name, none of which is `=`. -/
def EndsInParameters (line : Nat) (passed : List Token) : Prop :=
  ∃ header name between isTop, passed = header ++ name :: between ∧ EndsInHeader false isTop header ∧
    name.isIdentifier = true ∧ name.line = line ∧ ∀ t ∈ between, t.line = line ∧ t.isPunct "=" = false

/-- What the tokens before tell of a declaration that the reader is in the middle of. -/
def Mode.OpenedBy (passed : List Token) : Mode → Prop
  | .header isType isTop _ => EndsInHeader isType isTop passed
  | .parameters line => EndsInParameters line passed
  | .plain | .lambda => True

variable {state : ReaderState} {previous : Option Token} {t : Token} {passed rest : List Token}

private theorem readPlain_openedBy (inAttribute : Bool) :
    (readPlain inAttribute previous t rest).2.mode.OpenedBy (passed ++ [t]) := by
  unfold readPlain
  split_ifs with declares
  · refine ⟨passed, t, [], rfl, ?_, rfl, by simp⟩
    split_ifs with types
    · exact types
    · exact (Bool.or_eq_true_iff.mp declares).resolve_right types
  all_goals trivial

private theorem read_openedBy (opened : state.mode.OpenedBy passed) :
    (read state previous t rest).2.mode.OpenedBy (passed ++ [t]) := by
  obtain ⟨inAttribute, mode⟩ := state
  cases mode with
  | plain => exact readPlain_openedBy inAttribute
  | header isType isTop access =>
    by_cases modifier : isModifier t = true
    · rw [read_modifier modifier]
      obtain ⟨before, keyword, modifiers, whole, word, column, modifies⟩ := opened
      refine ⟨before, keyword, modifiers ++ [t], by simp [whole], word, column, ?_⟩
      simpa [or_imp, forall_and, modifier] using modifies
    · by_cases named : t.isIdentifier = true
      · have other : ∀ word, t.isKeyword word = false := fun word => isKeyword_of_identifier named word
        cases isType with
        | true =>
          simp only [read, other, named, Bool.or_false, Bool.false_eq_true, if_false, if_true]
          trivial
        | false =>
          simp only [read, other, named, Bool.or_false, Bool.false_eq_true, if_false, if_true]
          exact ⟨passed, t, [], isTop, rfl, opened, named, rfl, by simp⟩
      · rw [read_nameless (by simpa using modifier) (by simpa using named)]
        exact readPlain_openedBy inAttribute
  | parameters line =>
    simp only [read]
    split
    · exact readPlain_openedBy inAttribute
    · next inside =>
      obtain ⟨header, name, between, isTop, whole, heading, named, same, free⟩ := opened
      refine ⟨header, name, between ++ [t], isTop, by simp [whole], heading, named, same, ?_⟩
      intro u member
      rcases List.mem_append.mp member with earlier | last
      · exact free u earlier
      · obtain rfl := List.mem_singleton.mp last
        simpa using inside
  | lambda =>
    simp only [read]
    split
    · exact readPlain_openedBy inAttribute
    · trivial

theorem openedBy_stateBehind (passed more : List Token) :
    (stateBehind ⟨false, .plain⟩ none passed more).mode.OpenedBy passed := by
  induction passed using List.reverseRecOn generalizing more with
  | nil => trivial
  | append_singleton passed t ih =>
    rw [stateBehind_concat]
    exact read_openedBy (ih _)

end openings

end CrossRef.Check
