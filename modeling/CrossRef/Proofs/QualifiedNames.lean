import CrossRef.Proofs.TokenRoles
import Mathlib.Algebra.Order.BigOperators.Group.List
import Mathlib.Algebra.Order.Group.Nat

/-! The last segment of a qualified name. It refers to something wherever an expression may stand. Among parameters only
the name in front of the point is told apart from them, so that the segment behind it becomes one of them, also in an
annotation. -/

namespace CrossRef.Check
open Syntax

/-- An identifier with a point directly before it, behind another identifier. -/
structure QualifiedName (tokens : List Token) where
  before : List Token
  qualifier : Token
  dot : Token
  last : Token
  after : List Token
  whole : tokens = before ++ qualifier :: dot :: last :: after
  qualifies : qualifier.isIdentifier = true
  point : dot.kind = .dot
  joined : dot.touches last = true
  named : last.isIdentifier = true

namespace QualifiedName

variable {tokens : List Token}

def passed (q : QualifiedName tokens) : List Token :=
  q.before ++ [q.qualifier, q.dot]

def state (q : QualifiedName tokens) : ReaderState :=
  stateBehind ⟨false, .plain⟩ none q.passed (q.last :: q.after)

/-- Whether the last segment stands among parameters: of a `let` on its line, or of a `fun` that waits for its arrow. -/
def isParameter (q : QualifiedName tokens) : Bool :=
  match q.state.mode with
  | .parameters line => line == q.last.line
  | .lambda => true
  | .plain | .header .. => false

end QualifiedName

section point

variable {inAttribute : Bool} {state : ReaderState} {previous : Option Token} {t : Token} {rest : List Token}

private theorem readPlain_point (point : t.kind = .dot) :
    readPlain inAttribute previous t rest = (.other, ⟨inAttribute, .plain⟩) := by
  simp [readPlain, Token.isKeyword, isPair, Token.isPunct, Token.isIdentifier, point]

private theorem read_point (point : t.kind = .dot) (isType isTop : Bool) (access : Access) :
    (read state previous t rest).2.mode ≠ .header isType isTop access := by
  intro waits
  obtain ⟨inAttribute, mode⟩ := state
  cases mode with
  | plain =>
    simp only [read, readPlain_point point] at waits
    cases waits
  | header =>
    have plain : isModifier t = false := by simp [isModifier, Token.isKeyword, point]
    have nameless : t.isIdentifier = false := by simp [Token.isIdentifier, point]
    rw [read_nameless plain nameless, readPlain_point point] at waits
    cases waits
  | parameters line =>
    simp only [read, readPlain_point point] at waits
    split at waits <;> cases waits
  | lambda =>
    simp only [read, readPlain_point point] at waits
    split at waits <;> cases waits

end point

namespace QualifiedName

variable {text : String} {defines : List String} (q : QualifiedName (code (lex text defines).tokens))

theorem split : code (lex text defines).tokens = q.passed ++ q.last :: q.after :=
  q.whole.trans (by simp [passed])

private theorem state_not_header (isType isTop : Bool) (access : Access) :
    q.state.mode ≠ .header isType isTop access := by
  have passed : q.passed = (q.before ++ [q.qualifier]) ++ [q.dot] := by simp [passed]
  rw [state, passed, stateBehind_concat]
  exact read_point q.point isType isTop access

/-- Among parameters the segment becomes one of them, since it is no colon that stands directly before it. -/
theorem read_last : (read q.state (some q.dot) q.last q.after).1 =
    if q.isParameter then .binder .parameter .everywhere true
    else referenceRole q.state.inAttribute (some q.dot) q.last q.after := by
  have sign : ∀ sign, q.last.isPunct sign = false := by
    intro sign
    apply isPunct_of_kind
    intro other
    have named := q.named
    rw [Token.isIdentifier, other] at named
    cases named
  have parameter : parameterRole (some q.dot) q.last q.after = .binder .parameter .everywhere true := by
    simp [parameterRole, q.named, Token.isPunct, q.point]
  cases mode : q.state.mode with
  | plain => simp [read, isParameter, mode, readPlain_identifier q.named]
  | header isType isTop access => exact absurd mode (q.state_not_header isType isTop access)
  | parameters line =>
    by_cases same : q.last.line = line
    · simp [read, isParameter, mode, same, sign, parameter]
    · simp [read, isParameter, mode, same, Ne.symm same, readPlain_identifier q.named]
  | lambda => simp [read, isParameter, mode, isPair, sign, parameter]

private theorem role_of_last : (q.last, if q.isParameter then .binder .parameter .everywhere true
    else referenceRole q.state.inAttribute (some q.dot) q.last q.after) ∈ roles (lex text defines).tokens := by
  have plays := role_at_split q.split
  have last : q.passed.getLast? = some q.dot := by simp [passed]
  rw [last] at plays
  rw [← q.read_last]
  exact plays

/-- A segment is no parameter if each `fun` before it has its arrow and no `let` on its line is still before `=`. -/
theorem outside_of_closed (arrived : endsLambdas q.passed = true) (closed : ¬EndsInParameters q.last.line q.passed) :
    q.isParameter = false := by
  have opened := openedBy_stateBehind q.passed (q.last :: q.after)
  have start : Settles ((q.passed.map (·.line)).sum + 1) ⟨false, .plain⟩ q.passed :=
    ⟨arrived, by simp, by simp, fun t member => Nat.lt_succ_of_le (List.le_sum_of_mem (List.mem_map_of_mem member))⟩
  have settled := start.stateBehind none (q.last :: q.after)
  cases mode : q.state.mode with
  | plain | header => simp [isParameter, mode]
  | parameters line =>
    rw [state] at mode
    rw [mode] at opened
    have other : line ≠ q.last.line := fun same => closed (same ▸ opened)
    simp [isParameter, state, mode, other]
  | lambda => exact absurd (settled.waiting mode) Bool.false_ne_true

variable {path : Path}

private theorem parameter_of_binding {b : Binding} (bound : b ∈ (Analysis.ofText path text defines).bindings)
    (token : b.token = q.last) : q.isParameter = true ∧ b.symbol.kind = .parameter ∧ b.symbol.isLocal = true := by
  have binds := binder_of_binding bound
  rw [token] at binds
  have same := role_unique binds q.role_of_last
  by_cases among : q.isParameter = true
  · rw [if_pos among] at same
    obtain ⟨kind, -, inner⟩ := Role.binder.inj same
    exact ⟨among, kind, inner⟩
  · rw [if_neg among] at same
    rcases referenceRole_cases q.state.inAttribute (some q.dot) q.last q.after with ⟨-, role⟩ | ⟨-, _, role, -⟩
    · rw [role] at same
      cases same
    · rw [role] at same
      cases same

private theorem outside_of_reference {r : Reference} (referred : r ∈ (Analysis.ofText path text defines).references)
    (token : r.token = q.last) : q.isParameter = false ∧ ¬IsQualifier (lex text defines).tokens q.last := by
  have refers := mem_references_iff.mp referred
  rw [token] at refers
  have same := role_unique refers q.role_of_last
  by_cases among : q.isParameter = true
  · rw [if_pos among] at same
    cases same
  · rw [if_neg among] at same
    rcases referenceRole_cases q.state.inAttribute (some q.dot) q.last q.after with ⟨-, role⟩ | ⟨last, -⟩
    · rw [role] at same
      cases same
    · refine ⟨by simpa using among, ?_⟩
      rw [← isQualifier_iff q.split, last]
      exact Bool.false_ne_true

private theorem exists_reference (path : Path) (outside : q.isParameter = false)
    (last : ¬IsQualifier (lex text defines).tokens q.last) :
    ∃ r ∈ (Analysis.ofText path text defines).references, r.token = q.last := by
  have role := q.role_of_last
  rw [if_neg (by simp [outside])] at role
  rcases referenceRole_cases q.state.inAttribute (some q.dot) q.last q.after with ⟨followed, -⟩ | ⟨-, kind, same, -⟩
  · exact absurd ((isQualifier_iff q.split).mp followed) last
  · rw [same] at role
    exact ⟨⟨q.last, kind⟩, mem_references_iff.mpr role, rfl⟩

end QualifiedName

/-- The last segment of a qualified name is bound, as a parameter, exactly if it stands among parameters. Else it refers
to something, unless a point follows. -/
theorem last_segment_bound_iff (path : Path) {text : String} {defines : List String}
    (q : QualifiedName (code (lex text defines).tokens)) :
    ((∃ b ∈ (Analysis.ofText path text defines).bindings, b.token = q.last) ↔ q.isParameter = true) ∧
    (∀ b ∈ (Analysis.ofText path text defines).bindings, b.token = q.last →
      b.symbol.kind = .parameter ∧ b.symbol.isLocal = true) ∧
    ((∃ r ∈ (Analysis.ofText path text defines).references, r.token = q.last) ↔
      q.isParameter = false ∧ ¬IsQualifier (lex text defines).tokens q.last) ∧
    (endsLambdas q.passed = true → ¬EndsInParameters q.last.line q.passed → q.isParameter = false) := by
  refine ⟨⟨?_, ?_⟩, ?_, ⟨?_, ?_⟩, q.outside_of_closed⟩
  · rintro ⟨b, bound, token⟩
    exact (q.parameter_of_binding bound token).1
  · intro among
    have role := q.role_of_last
    rw [if_pos among] at role
    obtain ⟨b, bound, token, -⟩ := @binding_of_role path _ _ _ _ _ _ role
    exact ⟨b, bound, token⟩
  · intro b bound token
    exact (q.parameter_of_binding bound token).2
  · rintro ⟨r, referred, token⟩
    exact q.outside_of_reference referred token
  · rintro ⟨outside, last⟩
    exact q.exists_reference path outside last

end CrossRef.Check

namespace CrossRef.Sample
open Check Syntax

def segment : QualifiedName (code (lex "fun x -> M.x" []).tokens) where
  before := [⟨.keyword, ⟨0, 3⟩, 0, 0, "fun"⟩, ⟨.word, ⟨4, 1⟩, 0, 4, "x"⟩, ⟨.punct, ⟨6, 1⟩, 0, 6, "-"⟩,
    ⟨.punct, ⟨7, 1⟩, 0, 7, ">"⟩]
  qualifier := ⟨.word, ⟨9, 1⟩, 0, 9, "M"⟩
  dot := ⟨.dot, ⟨10, 1⟩, 0, 10, "."⟩
  last := ⟨.word, ⟨11, 1⟩, 0, 11, "x"⟩
  after := []
  whole := by decide +kernel
  qualifies := rfl
  point := rfl
  joined := rfl
  named := rfl

theorem segment_refers : endsLambdas segment.passed = true ∧ ¬EndsInParameters segment.last.line segment.passed ∧
    ∃ r ∈ (Analysis.ofText (.ofText "point.ml") "fun x -> M.x" []).references, r.token = segment.last := by
  have closed : ¬EndsInParameters segment.last.line segment.passed := by
    rintro ⟨_, _, _, _, whole, ⟨_, keyword, _, rfl, declares, -⟩, -⟩
    have free : ∀ t ∈ segment.passed, t.isKeyword "let" = false := by decide
    rw [if_neg Bool.false_ne_true, free keyword (by rw [whole]; simp)] at declares
    cases declares
  obtain ⟨-, -, refers, outside⟩ := last_segment_bound_iff (.ofText "point.ml") segment
  exact ⟨by decide, closed, refers.mpr ⟨outside (by decide) closed, by decide +kernel⟩⟩

def pointType : QualifiedName (code (lex "type Point = int\nlet f (p: Geo.Point) = p" []).tokens) where
  before := (code (lex "type Point = int\nlet f (p:" []).tokens)
  qualifier := ⟨.word, ⟨27, 3⟩, 1, 10, "Geo"⟩
  dot := ⟨.dot, ⟨30, 1⟩, 1, 13, "."⟩
  last := ⟨.word, ⟨31, 5⟩, 1, 14, "Point"⟩
  after := [⟨.punct, ⟨36, 1⟩, 1, 19, ")"⟩, ⟨.punct, ⟨38, 1⟩, 1, 21, "="⟩, ⟨.word, ⟨40, 1⟩, 1, 23, "p"⟩]
  whole := by decide +kernel
  qualifies := rfl
  point := rfl
  joined := rfl
  named := rfl

theorem pointType_is_parameter :
    (∃ b ∈ (Analysis.ofText (.ofText "point.ml") "type Point = int\nlet f (p: Geo.Point) = p" []).bindings,
      b.token = pointType.last ∧ b.symbol.kind = .parameter) ∧
    ¬∃ r ∈ (Analysis.ofText (.ofText "point.ml") "type Point = int\nlet f (p: Geo.Point) = p" []).references,
      r.token = pointType.last := by
  decide +kernel

end CrossRef.Sample
