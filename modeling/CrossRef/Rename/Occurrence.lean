import CrossRef.Syntax.Candidate

/-! An occurrence of a name in a text: where a range finds one, and putting something else in its place.
The range may come from an older text; if it no longer holds the name, nothing is found. -/

namespace CrossRef.Rename
open Syntax

/-- Replaces the text under a span. -/
def splice (text : String) (span : Span) (new : String) : String :=
  match Text.between? text 0 span.start, Text.between? text span.stop text.utf8ByteSize with
  | some left, some right => left ++ new ++ right
  | _, _ => text

theorem splice_append {span : Span} {front inside back : String} (start : front.utf8ByteSize = span.start)
    (length : inside.utf8ByteSize = span.length) (new : String) :
    splice (front ++ inside ++ back) span new = front ++ new ++ back := by
  have left := Text.between?_append "" front (inside ++ back)
  have right := Text.between?_append (front ++ inside) back ""
  simp only [String.empty_append, String.append_empty, String.utf8ByteSize_empty, ← String.append_assoc]
    at left right
  have stop : span.stop = (front ++ inside).utf8ByteSize := by
    rw [Span.stop, ← start, ← length, String.utf8ByteSize_append]
  rw [splice, ← start, stop, left, right]

/-- Whether a span of a text holds a name, quoted or not. -/
def holdsName (text name : String) (span : Span) : Bool :=
  (span.slice? text).any fun shown => unquote shown == name

/-- The part of a span that can be replaced, if it holds the name. -/
def holder? (text name : String) (span : Span) : Option Span :=
  let narrowed := narrow text span
  if !narrowed.isEmpty && holdsName text name narrowed then some narrowed else none

/-- The span that a range means in a text, if it holds the name. -/
def target? (index : LineIndex) (text name : String) (range : Range) : Option Span :=
  (index.spanOf? range).bind (holder? text name)

/-- Replaces the name under a span, if the span holds it. -/
def replaceAt (name new text : String) (span : Span) : String :=
  (holder? text name span).elim text fun found => splice text found new

/-- Replaces the name at a range, if the range holds it. -/
def replaceOne (name new text : String) (range : Range) : String :=
  ((LineIndex.ofText text).spanOf? range).elim text (replaceAt name new text)

theorem replaceOne_eq (name new text : String) (range : Range) :
    replaceOne name new text range =
      (target? (LineIndex.ofText text) text name range).elim text fun found => splice text found new := by
  unfold replaceOne target? replaceAt
  cases (LineIndex.ofText text).spanOf? range <;> rfl

/-- What a span holds is the name. -/
theorem slice?_of_holder? {text name : String} {span found : Span} (held : holder? text name span = some found) :
    ∃ shown, found.slice? text = some shown ∧ unquote shown = name := by
  unfold holder? at held
  by_cases accepted : (!(narrow text span).isEmpty && holdsName text name (narrow text span)) = true
  · rw [if_pos accepted] at held
    obtain rfl := Option.some.inj held
    obtain ⟨shown, cut, named⟩ := (Option.any_eq_true ..).1 (Bool.and_eq_true_iff.1 accepted).2
    exact ⟨shown, cut, beq_iff_eq.1 named⟩
  · rw [if_neg accepted] at held
    cases held

theorem holder?_within (front inside back name : String) (span : Span)
    (fits : span.stop ≤ inside.utf8ByteSize) :
    holder? (front ++ inside ++ back) name ⟨front.utf8ByteSize + span.start, span.length⟩ =
      (holder? inside name span).map fun found => ⟨front.utf8ByteSize + found.start, found.length⟩ := by
  have near : (narrow inside span).stop ≤ inside.utf8ByteSize := by
    rw [stop_narrow, Span.stopIn_of_le fits]
    exact Nat.le_trans (Text.boundaryBefore_le ..) fits
  simp only [holder?, narrow_within front inside back span fits]
  generalize narrow inside span = narrowed at near
  have same : holdsName (front ++ inside ++ back) name
      ⟨front.utf8ByteSize + narrowed.start, narrowed.length⟩ = holdsName inside name narrowed := by
    simp only [holdsName, Span.slice?]
    rw [← Text.between?_within front inside back near, Span.stop, Span.stop, Nat.add_assoc]
  have empty : Span.isEmpty ⟨front.utf8ByteSize + narrowed.start, narrowed.length⟩ = narrowed.isEmpty := rfl
  rw [same, empty]
  cases narrowed.isEmpty <;> cases holdsName inside name narrowed <;> rfl

/-- Either nothing is done, or the name stands between the two parts of the text that are kept. -/
theorem replaceAt_cases (name new text : String) (span : Span) :
    replaceAt name new text span = text ∨
      ∃ front shown back, text = front ++ shown ++ back ∧ unquote shown = name ∧
        replaceAt name new text span = front ++ new ++ back := by
  cases found : holder? text name span with
  | none =>
    have same : replaceAt name new text span = text := by simp only [replaceAt, found, Option.elim]
    exact .inl same
  | some narrowed =>
    have done : replaceAt name new text span = splice text narrowed new := by
      simp only [replaceAt, found, Option.elim]
    obtain ⟨shown, cut, named⟩ := slice?_of_holder? found
    obtain ⟨front, back, rfl, start, length⟩ := Span.slice?_eq_some_iff.1 cut
    exact .inr ⟨front, shown, back, rfl, named, done.trans (splice_append start length new)⟩

/-- What stands around a part of the text stays as it is when a name in that part is replaced. -/
theorem replaceAt_within (front inside back name new : String) (span : Span)
    (fits : span.stop ≤ inside.utf8ByteSize) :
    replaceAt name new (front ++ inside ++ back) ⟨front.utf8ByteSize + span.start, span.length⟩ =
      front ++ replaceAt name new inside span ++ back := by
  have there := holder?_within front inside back name span fits
  cases found : holder? inside name span with
  | none =>
    rw [found] at there
    have same : replaceAt name new inside span = inside := by simp only [replaceAt, found, Option.elim]
    rw [same, replaceAt, there]
    rfl
  | some narrowed =>
    rw [found] at there
    have done : replaceAt name new inside span = splice inside narrowed new := by
      simp only [replaceAt, found, Option.elim]
    rw [done, replaceAt, there]
    obtain ⟨shown, cut, _⟩ := slice?_of_holder? found
    obtain ⟨left, right, rfl, start, length⟩ := Span.slice?_eq_some_iff.1 cut
    have regroup : front ++ (left ++ shown ++ right) ++ back = front ++ left ++ shown ++ (right ++ back) := by
      simp [String.append_assoc]
    have shifted : (front ++ left).utf8ByteSize =
        Span.start ⟨front.utf8ByteSize + narrowed.start, narrowed.length⟩ := by
      rw [String.utf8ByteSize_append, start]
    rw [Option.map_some, regroup, splice_append start length]
    simp only [Option.elim]
    rw [splice_append shifted length]
    simp [String.append_assoc]

end CrossRef.Rename
