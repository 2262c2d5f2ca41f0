import CrossRef.Proofs.FileMarks
import CrossRef.Proofs.RespelledText
import Mathlib.Data.List.Forall2

/-! The marks of a text in which some words are spelled in another way. The reader asks of a token for its kind,
its line, whether it stands first on it, what it touches, and for the text of keywords and signs, which are
never respelled. So it gives the same roles, and the marks stand at the same tokens as before. -/

namespace CrossRef.Syntax.Respelled

variable {chosen : Token → Bool} {new : String} {t u : Token}

theorem isIdentifier (same : Respelled chosen new t u) : u.isIdentifier = t.isIdentifier := by
  rw [Token.isIdentifier, Token.isIdentifier, same.kind]

private theorem text_of_kind (same : Respelled chosen new t u) (other : t.kind ≠ .word) : u.text = t.text := by
  refine same.kept ?_
  by_contra one
  exact other (same.renamed (by simpa using one)).1

theorem isPunct (same : Respelled chosen new t u) (sign : String) : u.isPunct sign = t.isPunct sign := by
  rw [Token.isPunct, Token.isPunct, same.kind]
  by_cases punct : t.kind = .punct
  · rw [same.text_of_kind (by simp [punct])]
  · rw [beq_eq_false_iff_ne.mpr punct, Bool.false_and, Bool.false_and]

theorem isKeyword (same : Respelled chosen new t u) (word : String) : u.isKeyword word = t.isKeyword word := by
  rw [Token.isKeyword, Token.isKeyword, same.kind]
  by_cases keyword : t.kind = .keyword
  · rw [same.text_of_kind (by simp [keyword])]
  · rw [beq_eq_false_iff_ne.mpr keyword, Bool.false_and, Bool.false_and]

private theorem first_on_line (same : Respelled chosen new t u) : (u.column == 0) = (t.column == 0) := by
  rw [Bool.eq_iff_iff, beq_iff_eq, beq_iff_eq, same.column]

theorem startsTopLevel (same : Respelled chosen new t u) : Check.startsTopLevel u = Check.startsTopLevel t := by
  rw [Check.startsTopLevel, Check.startsTopLevel, same.first_on_line, same.isKeyword, same.isKeyword]

theorem name (same : Respelled chosen new t u) (plain : fenced? new.toList = none) :
    u.name = if chosen t = true then new else t.name := by
  rw [Token.name, Token.name]
  split
  · rename_i one
    rw [(same.renamed one).2, unquote, plain]
  · rename_i other
    rw [same.kept (by simpa using other)]

end CrossRef.Syntax.Respelled

namespace CrossRef.Check
open Syntax

structure Beside (chosen : Token → Bool) (new : String) (pairs : List (Token × Token)) : Prop where
  respelled : ∀ x ∈ pairs, Respelled chosen new x.1 x.2
  inStep : InStep pairs

def RoleBeside (pairs : List (Token × Token)) (a b : Token × Role) : Prop :=
  (a.1, b.1) ∈ pairs ∧ b.2 = a.2

private def SameOrder (x y : Token × Token) : Prop :=
  (x.1.span.start < y.1.span.start ↔ x.2.span.start < y.2.span.start) ∧
    (y.1.span.start < x.1.span.start ↔ y.2.span.start < x.2.span.start)

namespace Beside

variable {chosen : Token → Bool} {new : String} {x : Token × Token} {pairs rest : List (Token × Token)}

theorem head (beside : Beside chosen new (x :: rest)) : Respelled chosen new x.1 x.2 :=
  beside.respelled x (List.mem_cons_self ..)

theorem tail (beside : Beside chosen new (x :: rest)) : Beside chosen new rest :=
  ⟨fun y later => beside.respelled y (List.mem_cons_of_mem _ later), (List.pairwise_cons.mp beside.inStep).2⟩

theorem filter (beside : Beside chosen new pairs) (keep : Token × Token → Bool) :
    Beside chosen new (pairs.filter keep) :=
  ⟨fun y inside => beside.respelled y (List.mem_of_mem_filter inside), beside.inStep.filter _⟩

theorem start_lt_iff (beside : Beside chosen new pairs) {y : Token × Token} (first : x ∈ pairs) (second : y ∈ pairs) :
    x.1.span.start < y.1.span.start ↔ x.2.span.start < y.2.span.start := by
  have : Std.Symm SameOrder := ⟨fun _ _ => And.symm⟩
  have ordered : pairs.Pairwise SameOrder := by
    refine beside.inStep.imp_of_mem fun {x y} early _ follows => ?_
    have filled := (beside.respelled x early).filled
    obtain ⟨left, right, -⟩ := follows
    simp only [Span.stop] at left right
    exact ⟨by omega, by omega⟩
  by_cases same : x = y
  · simp [same]
  · exact (ordered.forall first second same).1

private theorem any_next (beside : Beside chosen new (x :: rest)) {p : Token → Bool}
    (same : ∀ t u, Respelled chosen new t u → p u = p t) :
    ((rest.map (·.2)).head?.any fun next => p next && x.2.touches next) =
      (rest.map (·.1)).head?.any fun next => p next && x.1.touches next := by
  cases rest with
  | nil => rfl
  | cons y rest =>
    obtain ⟨-, -, touches⟩ := (List.pairwise_cons.mp beside.inStep).1 y (List.mem_cons_self ..)
    have next := same _ _ beside.tail.head
    simp only [List.map_cons, List.head?_cons, Option.any_some, next, Token.touches]
    rw [Bool.eq_iff_iff]
    simp only [Bool.and_eq_true, beq_iff_eq, touches]

theorem isPair (beside : Beside chosen new (x :: rest)) (first second : String) :
    Check.isPair first second x.2 (rest.map (·.2)) = Check.isPair first second x.1 (rest.map (·.1)) := by
  rw [Check.isPair, Check.isPair, beside.head.isPunct, beside.any_next fun t u same => same.isPunct second]

theorem hasParameter (beside : Beside chosen new (x :: rest)) (line : Nat) :
    Check.hasParameter line x.2 (rest.map (·.2)) = Check.hasParameter line x.1 (rest.map (·.1)) := by
  induction rest generalizing x with
  | nil => rfl
  | cons y rest ih =>
    have next := beside.tail.head
    simp only [List.map_cons, Check.hasParameter, next.line, next.isPunct, next.isIdentifier, beside.head.isPunct,
      ih beside.tail]

variable {previous : Option (Token × Token)}

private theorem any_previous (known : ∀ y ∈ previous, Respelled chosen new y.1 y.2) (sign : String) :
    (previous.map (·.2)).any (·.isPunct sign) = (previous.map (·.1)).any (·.isPunct sign) := by
  cases previous with
  | none => rfl
  | some y => exact (known y rfl).isPunct sign

theorem referenceRole (beside : Beside chosen new (x :: rest)) (known : ∀ y ∈ previous, Respelled chosen new y.1 y.2)
    (inAttribute : Bool) :
    Check.referenceRole inAttribute (previous.map (·.2)) x.2 (rest.map (·.2)) =
      Check.referenceRole inAttribute (previous.map (·.1)) x.1 (rest.map (·.1)) := by
  have dot : ∀ t u, Respelled chosen new t u → (u.kind == .dot) = (t.kind == .dot) := by
    intro t u same
    rw [same.kind]
  simp only [Check.referenceRole, beside.any_next dot, any_previous known]

theorem readPlain (beside : Beside chosen new (x :: rest)) (known : ∀ y ∈ previous, Respelled chosen new y.1 y.2)
    (inAttribute : Bool) :
    Check.readPlain inAttribute (previous.map (·.2)) x.2 (rest.map (·.2)) =
      Check.readPlain inAttribute (previous.map (·.1)) x.1 (rest.map (·.1)) := by
  have here := beside.head
  simp only [Check.readPlain, here.isKeyword, here.first_on_line, here.isIdentifier, beside.isPair,
    beside.referenceRole known]

theorem parameterRole (beside : Beside chosen new (x :: rest)) (known : ∀ y ∈ previous, Respelled chosen new y.1 y.2) :
    Check.parameterRole (previous.map (·.2)) x.2 (rest.map (·.2)) =
      Check.parameterRole (previous.map (·.1)) x.1 (rest.map (·.1)) := by
  simp only [Check.parameterRole, beside.head.isIdentifier, any_previous known, beside.referenceRole known]

theorem read (beside : Beside chosen new (x :: rest)) (known : ∀ y ∈ previous, Respelled chosen new y.1 y.2)
    (state : ReaderState) :
    Check.read state (previous.map (·.2)) x.2 (rest.map (·.2)) =
      Check.read state (previous.map (·.1)) x.1 (rest.map (·.1)) := by
  have here := beside.head
  have plain := beside.readPlain known
  cases mode : state.mode with
  | plain => simp only [Check.read, mode, plain]
  | header isType isTop access =>
    simp only [Check.read, mode, plain, here.isKeyword, here.isIdentifier, here.line, beside.hasParameter]
  | parameters line =>
    simp only [Check.read, mode, plain, here.isPunct, here.line, beside.parameterRole known]
  | lambda => simp only [Check.read, mode, plain, beside.isPair, beside.parameterRole known]

theorem rolesFrom (beside : Beside chosen new pairs) (state : ReaderState) (previous : Option (Token × Token))
    (known : ∀ y ∈ previous, Respelled chosen new y.1 y.2) :
    List.Forall₂ (RoleBeside pairs)
      (Check.rolesFrom state (previous.map (·.1)) (pairs.map (·.1)))
      (Check.rolesFrom state (previous.map (·.2)) (pairs.map (·.2))) := by
  induction pairs generalizing state previous with
  | nil => exact .nil
  | cons x rest ih =>
    have step := beside.read known state
    have later := ih beside.tail (Check.read state (previous.map (·.1)) x.1 (rest.map (·.1))).2 (some x)
      (by simpa using beside.head)
    simp only [List.map_cons, Check.rolesFrom, step]
    refine .cons ⟨List.mem_cons_self .., rfl⟩ (later.imp ?_)
    intro a b same
    exact ⟨List.mem_cons_of_mem _ same.1, same.2⟩

end Beside

def AtStarts (pairs : List (Token × Token)) (m n : Nat) : Prop :=
  ∃ x ∈ pairs, m = x.1.span.start ∧ n = x.2.span.start

structure ScopedToken.Beside (pairs : List (Token × Token)) (x y : ScopedToken) : Prop where
  tokens : (x.token, y.token) ∈ pairs
  role : y.role = x.role
  scopeEnd : Option.Rel (AtStarts pairs) x.scopeEnd y.scopeEnd

structure Binding.Beside (pairs : List (Token × Token)) (b c : Binding) : Prop where
  tokens : (b.token, c.token) ∈ pairs
  kind : c.symbol.kind = b.symbol.kind
  access : c.symbol.access = b.symbol.access
  isLocal : c.symbol.isLocal = b.symbol.isLocal
  named : b.symbol.name = b.token.name
  renamed : c.symbol.name = c.token.name
  scopeEnd : Option.Rel (AtStarts pairs) b.scopeEnd c.scopeEnd

inductive Mark.Beside (pairs : List (Token × Token)) : Mark → Mark → Prop where
  | binding {b c : Binding} (same : b.Beside pairs c) : Mark.Beside pairs (.binding b) (.binding c)
  | reference {r q : Reference} (tokens : (r.token, q.token) ∈ pairs) (kind : q.kind = r.kind) :
      Mark.Beside pairs (.reference r) (.reference q)

namespace Beside

variable {chosen : Token → Bool} {new : String} {pairs : List (Token × Token)}

theorem nextTopLevel? (beside : Beside chosen new pairs) {before after : List (Token × Role)}
    (roles : List.Forall₂ (RoleBeside pairs) before after) :
    Option.Rel (AtStarts pairs) (Check.nextTopLevel? before) (Check.nextTopLevel? after) := by
  induction roles with
  | nil => exact .none
  | @cons a b before after here _ ih =>
    have same : startsTopLevel b.1 = startsTopLevel a.1 := (beside.respelled _ here.1).startsTopLevel
    rw [nextTopLevel?_cons, nextTopLevel?_cons, same]
    split
    · exact .some ⟨_, here.1, rfl, rfl⟩
    · exact ih

theorem withScopes (beside : Beside chosen new pairs) {before after : List (Token × Role)}
    (roles : List.Forall₂ (RoleBeside pairs) before after) :
    List.Forall₂ (ScopedToken.Beside pairs) (Check.withScopes before) (Check.withScopes after) := by
  induction roles with
  | nil => exact .nil
  | @cons a b before after here rest ih =>
    rw [withScopes_cons, withScopes_cons]
    exact .cons ⟨here.1, here.2, beside.nextTopLevel? rest⟩ ih

theorem covers (beside : Beside chosen new pairs) {b c : Binding} (same : b.Beside pairs c) {t u : Token}
    (tokens : (t, u) ∈ pairs) : c.covers u.span.start = b.covers t.span.start := by
  have behind := beside.start_lt_iff same.tokens tokens
  have inside : c.scopeEnd.all (u.span.start < ·) = b.scopeEnd.all (t.span.start < ·) := by
    have ends := same.scopeEnd
    generalize b.scopeEnd = old at ends
    generalize c.scopeEnd = renewed at ends
    cases ends with
    | none => rfl
    | some starts =>
      obtain ⟨x, known, rfl, rfl⟩ := starts
      simp only [Option.all_some, ← beside.start_lt_iff tokens known]
  rw [Binding.covers, Binding.covers, inside]
  exact congrArg _ (decide_eq_decide.mpr behind.symm)

end Beside

/-- Owners and counts are different after a renaming. They make up the identities and nothing else. -/
theorem marksFrom_beside {pairs : List (Token × Token)} (path : Path) {before after : List ScopedToken}
    (items : List.Forall₂ (ScopedToken.Beside pairs) before after) (owner keeper : String)
    (seen counted : Tally (String × String)) :
    List.Forall₂ (Mark.Beside pairs) (marksFrom path owner seen before) (marksFrom path keeper counted after) := by
  induction items generalizing owner keeper seen counted with
  | nil => exact .nil
  | @cons x y before after here _ ih =>
    obtain ⟨t, _, scopeEnd⟩ := x
    obtain ⟨u, role, scopeStop⟩ := y
    obtain ⟨tokens, rfl, ends⟩ := here
    cases role with
    | binder kind access isLocal =>
      refine .cons (.binding ⟨tokens, rfl, rfl, rfl, rfl, rfl, ?_⟩) (ih ..)
      cases isLocal
      · exact .none
      · exact ends
    | reference kind => exact .cons (.reference tokens rfl) (ih ..)
    | qualifier | other => exact ih ..

theorem marks_of_paired {chosen : Token → Bool} {new text result : String} {defines : List String}
    {pairs : List (Token × Token)}
    (paired : Paired chosen new (lex text defines).tokens (lex result defines).tokens pairs) (path : Path) :
    List.Forall₂ (Mark.Beside pairs) (Analysis.ofText path text defines).marks
      (Analysis.ofText path result defines).marks := by
  have beside : Beside chosen new pairs := ⟨paired.respelled, paired.inStep⟩
  have comments : pairs.filter (·.2.kind != .comment) = pairs.filter (·.1.kind != .comment) :=
    List.filter_congr fun x inside => by rw [(beside.respelled x inside).kind]
  have code := (beside.filter (·.1.kind != .comment)).rolesFrom ⟨false, .plain⟩ none (by simp)
  have read : List.Forall₂ (RoleBeside pairs) (roles (lex text defines).tokens)
      (roles (lex result defines).tokens) := by
    rw [roles, roles, ← paired.before, ← paired.after, List.filter_map, List.filter_map]
    simp only [Function.comp_def, comments]
    exact code.imp fun a b same => ⟨List.mem_of_mem_filter same.1, same.2⟩
  exact marksFrom_beside path (beside.withScopes read) ..

end CrossRef.Check
