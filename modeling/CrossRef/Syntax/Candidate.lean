import CrossRef.Syntax.Lexer
import CrossRef.Text.Within

/-! From a place in a text to the name there: the identifier under a cursor with the path that qualifies
it, and the part of a span that holds the last name of such a path. -/

namespace CrossRef.Syntax

/-- How far a cursor may be from the identifier that it means. -/
inductive Lookup where
  /-- Inside it. -/
  | precise
  /-- Inside it or right behind it. -/
  | greedy
deriving DecidableEq, Repr, Inhabited

/-- The identifier or keyword at a cursor. -/
structure Candidate where
  span : Span
  isKeyword : Bool
  line : Nat
  startColumn : Nat
  endColumn : Nat
  /-- The content of the line. -/
  lineText : String
  /-- The names of the qualifying path, the identifier itself last. -/
  island : List String
deriving DecidableEq, Repr

def Candidate.name (c : Candidate) : String :=
  c.island.getLast?.getD ""

/-- The first token of a kind, with the tokens before it in reverse. -/
def splitAtToken (p : Token → Bool) : (before : List Token) → List Token → Option (List Token × Token)
  | _, [] => none
  | before, t :: ts => if p t then some (before, t) else splitAtToken p (t :: before) ts

/-- Puts the names that qualify a token, and its own, in front of others. A qualifier is an identifier
joined to what follows by a point, with no gap. The tokens before are given in reverse. -/
def islandBefore (names : List String) : (before : List Token) → Token → List String
  | dot :: qualifier :: before, t =>
    if dot.kind = .dot ∧ qualifier.isIdentifier ∧ qualifier.touches dot ∧ dot.touches t then
      islandBefore (t.name :: names) before qualifier
    else
      t.name :: names
  | _, t => t.name :: names

/-- The names that qualify a token, and its own last. -/
def island (before : List Token) (t : Token) : List String :=
  islandBefore [] before t

theorem islandBefore_eq : ∀ (names : List String) (before : List Token) (t : Token),
    islandBefore names before t = island before t ++ names
  | names, dot :: qualifier :: before, t => by
    simp only [island, islandBefore]
    split
    · rw [islandBefore_eq (t.name :: names), islandBefore_eq [t.name]]
      simp
    · rfl
  | _, [], _ => rfl
  | _, [_], _ => rfl

/-- The identifier or keyword at an offset. -/
def candidateAt (text : String) (offset : Nat) (defines : List String) (lookup : Lookup) :
    Option Candidate := do
  let index := LineIndex.ofText text
  let line ← index.lineOf? offset
  let span ← index.lineSpan? line
  let tokens := (lex text defines).tokens.filter (·.line == line)
  let isName (t : Token) : Bool := t.isIdentifier || t.kind == .keyword
  let inside := splitAtToken (fun t => isName t && t.span.contains offset) [] tokens
  let behind := match lookup with
    | .greedy => splitAtToken (fun t => isName t && t.span.stop == offset) [] tokens
    | .precise => none
  let (before, token) ← inside <|> behind
  return {
    span := token.span
    isKeyword := token.kind == .keyword
    line
    startColumn := token.column
    endColumn := token.endColumn
    lineText := (span.slice? text).getD ""
    island := island before token }

/-- The bytes up to and including the last point outside a quoted name. -/
def pastLastDot? : (quoted : Bool) → List Char → Option Nat
  | _, [] => none
  | quoted, '\x60' :: '\x60' :: cs => (pastLastDot? (!quoted) cs).map (· + 2)
  | quoted, c :: cs =>
    match pastLastDot? quoted cs with
    | some n => some (c.utf8Size + n)
    | none => if c = '.' ∧ !quoted then some 1 else none

/-- Narrows a span that may be out of date to something that can be replaced: inside the text, on
character boundaries, and behind the last qualifying point. -/
def narrow (text : String) (span : Span) : Span :=
  let stop := Text.boundaryBefore text (span.stopIn text.utf8ByteSize)
  let start := Text.boundaryBefore text (min span.start stop)
  let inside := ((Span.ofBounds start stop).slice? text).getD ""
  Span.ofBounds (start + (pastLastDot? false inside.toList).getD 0) stop

theorem pastLastDot?_le (quoted : Bool) (cs : List Char) : (pastLastDot? quoted cs).getD 0 ≤ Text.size cs := by
  fun_induction pastLastDot? quoted cs with
  | case1 => simp
  | case2 quoted cs ih =>
    have backtick : Char.utf8Size '\x60' = 1 := rfl
    rw [Text.size_cons, Text.size_cons, backtick]
    cases found : pastLastDot? (!quoted) cs with
    | none => simp
    | some n =>
      rw [found, Option.getD_some] at ih
      rw [Option.map_some, Option.getD_some]
      omega
  | case3 quoted c cs _ n found ih => simp_all
  | case4 quoted c cs _ found here ih =>
    have := c.utf8Size_pos
    simp
    omega
  | case5 => simp

theorem ordered_narrow (text : String) (start stop : Nat) :
    Text.boundaryBefore text (min start (Text.boundaryBefore text stop)) ≤ Text.boundaryBefore text stop :=
  Nat.le_trans (Text.boundaryBefore_le ..) (Nat.min_le_right ..)

/-- What is left of a span does not reach behind it. -/
theorem stop_narrow (text : String) (span : Span) :
    (narrow text span).stop = Text.boundaryBefore text (span.stopIn text.utf8ByteSize) := by
  have ordered := ordered_narrow text span.start (span.stopIn text.utf8ByteSize)
  simp only [narrow, Span.ofBounds, Span.stop, Span.slice?]
  generalize Text.boundaryBefore text (span.stopIn text.utf8ByteSize) = stop at ordered ⊢
  generalize Text.boundaryBefore text (min span.start stop) = start at ordered ⊢
  rw [Nat.add_sub_cancel' ordered]
  cases found : Text.between? text start stop with
  | none => simp [pastLastDot?]; omega
  | some inside =>
    obtain ⟨front, back, rfl, rfl, rfl⟩ := Text.between?_eq_some_iff.1 found
    have short := pastLastDot?_le false inside.toList
    simp only [Option.getD_some, Text.size_toList, String.utf8ByteSize_append] at short ⊢
    omega

/-- A span inside a part of a text is narrowed in the whole as it is in the part. -/
theorem narrow_within (front inside back : String) (span : Span) (fits : span.stop ≤ inside.utf8ByteSize) :
    narrow (front ++ inside ++ back) ⟨front.utf8ByteSize + span.start, span.length⟩ =
      ⟨front.utf8ByteSize + (narrow inside span).start, (narrow inside span).length⟩ := by
  have near := Text.boundaryBefore_le inside span.stop
  have ordered := ordered_narrow inside span.start span.stop
  have shifted : Span.stop ⟨front.utf8ByteSize + span.start, span.length⟩ = front.utf8ByteSize + span.stop :=
    Nat.add_assoc ..
  have within : Span.stop ⟨front.utf8ByteSize + span.start, span.length⟩ ≤ (front ++ inside ++ back).utf8ByteSize := by
    rw [shifted, String.utf8ByteSize_append, String.utf8ByteSize_append]
    omega
  have stops : Text.boundaryBefore (front ++ inside ++ back)
      (Span.stop ⟨front.utf8ByteSize + span.start, span.length⟩) =
        front.utf8ByteSize + Text.boundaryBefore inside span.stop := by
    rw [← Text.boundaryBefore_within front inside back fits, shifted]
  simp only [narrow, Span.stopIn_of_le fits, Span.stopIn_of_le within, stops, Nat.add_min_add_left]
  rw [Text.boundaryBefore_within front inside back (by omega)]
  simp only [Span.ofBounds, Span.slice?, Span.stop] at fits near ordered ⊢
  generalize Text.boundaryBefore inside (span.start + span.length) = stop at near ordered ⊢
  generalize Text.boundaryBefore inside (min span.start stop) = start at near ordered ⊢
  have cut : Text.between? (front ++ inside ++ back) (front.utf8ByteSize + start)
      (front.utf8ByteSize + start + (front.utf8ByteSize + stop - (front.utf8ByteSize + start))) =
        Text.between? inside start (start + (stop - start)) := by
    rw [← Text.between?_within front inside back (by omega), Nat.add_sub_add_left, Nat.add_assoc]
  rw [cut, Span.mk.injEq]
  omega

end CrossRef.Syntax
