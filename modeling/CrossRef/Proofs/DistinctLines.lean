import CrossRef.Proofs.AcceptedSpans

/-! Replacing one occurrence after the other where each of them is on a line of its own. Lines stay lines, and an edit in
one of them changes neither the content of another one nor what a range means there. So each occurrence is found as it
would be in the text at the start, and the result is that of replacing them all together. -/

namespace CrossRef.Rename

private theorem Cut.start_le_of_mem_spans {start : Nat} {cuts : List Cut} {span : Span}
    (member : span ∈ Cut.spans start cuts) :
    start ≤ span.start := by
  induction cuts generalizing start with
  | nil => cases member
  | cons cut cuts ih =>
    rcases List.mem_cons.mp member with rfl | later
    · exact Nat.le_add_right ..
    · have := ih later
      omega

namespace ReplacedFrom

variable {start : Nat} {new text result : String} {spans : List Span}

theorem apart (replaced : ReplacedFrom start new spans text result) : Apart spans := by
  obtain ⟨cuts, rest, -, rfl, -⟩ := replaced
  induction cuts generalizing start with
  | nil => exact List.Pairwise.nil
  | cons cut cuts ih => exact List.pairwise_cons.mpr ⟨fun span later => Cut.start_le_of_mem_spans later, ih⟩

private theorem concat {others : List Span} {rest changed : String} (first : ReplacedFrom start new spans text result)
    (second : ReplacedFrom (start + text.utf8ByteSize) new others rest changed) :
    ReplacedFrom start new (spans ++ others) (text ++ rest) (result ++ changed) := by
  obtain ⟨cuts, last, rfl, rfl, rfl⟩ := first
  induction cuts generalizing start with
  | nil => exact second.append
  | cons cut cuts ih =>
    have sizes : start + (Cut.oldText last (cut :: cuts)).utf8ByteSize =
        start + cut.kept.utf8ByteSize + cut.shown.utf8ByteSize + (Cut.oldText last cuts).utf8ByteSize := by
      simp only [Cut.oldText, String.utf8ByteSize_append]
      omega
    obtain ⟨more, tail, texts, places, made⟩ := ih (sizes ▸ second)
    refine ⟨cut :: more, tail, ?_, ?_, ?_⟩
    · simp only [Cut.oldText, ← texts, String.append_assoc]
    · rw [Cut.spans, Cut.spans, ← places, List.cons_append]
    · simp only [Cut.newText, ← made, String.append_assoc]

end ReplacedFrom

def rangeOn? (ranges : List Range) (number : Nat) : Option Range :=
  ranges.find? (·.start.line == number)

def rewriteLine (name new : String) (ranges : List Range) (number : Nat) (line : String) : String :=
  (rangeOn? ranges number).elim line fun range => replaceInLine name new range.start.column range.stop.column line

/-- The span that a range means in its line, if it holds the name. -/
def lineTarget? (name : String) (range : Range) (line : String) : Option Span :=
  if range.start.column ≤ range.stop.column ∧ range.stop.column ≤ contentSize line then
    holder? line name (.ofBounds range.start.column range.stop.column)
  else none

/-- The spans that are replaced in lines, of which the first one has a number and starts at an offset. -/
def lineSpans (name : String) (ranges : List Range) : (number start : Nat) → List String → List Span
  | _, _, [] => []
  | number, start, line :: rest =>
    (((rangeOn? ranges number).bind (lineTarget? name · line)).map fun found =>
      (⟨start + found.start, found.length⟩ : Span)).toList ++
        lineSpans name ranges (number + 1) (start + line.utf8ByteSize + 1) rest

variable {name new : String} {ranges : List Range}

private theorem rangeOn?_of_mem (distinct : ranges.Pairwise fun a b => a.start.line ≠ b.start.line) {range : Range}
    (member : range ∈ ranges) : rangeOn? ranges range.start.line = some range := by
  induction ranges with
  | nil => cases member
  | cons first rest ih =>
    obtain ⟨others, later⟩ := List.pairwise_cons.mp distinct
    rcases List.mem_cons.mp member with rfl | inside
    · simp [rangeOn?]
    · rw [rangeOn?, List.find?_cons_of_neg (by simpa using others range inside)]
      exact ih later inside

theorem rewriteLine_cons {first : Range} (others : ∀ range ∈ ranges, first.start.line ≠ range.start.line) (number : Nat)
    (line : String) :
    rewriteLine name new (first :: ranges) number line = rewriteLine name new ranges number
      (if first.start.line = number then replaceInLine name new first.start.column first.stop.column line else line) := by
  by_cases here : first.start.line = number
  · have nothing : rangeOn? ranges number = none := by
      refine List.find?_eq_none.mpr fun range member => ?_
      rw [← here]
      simpa using (others range member).symm
    simp only [rewriteLine, nothing, Option.elim_none, if_pos here]
    simp [rangeOn?, here]
  · rw [if_neg here, rewriteLine, rangeOn?, List.find?_cons_of_neg (by simpa using here)]
    rfl

/-- Each line is changed once, whatever the order of the ranges. -/
theorem toList_lineByLine (distinct : ranges.Pairwise fun a b => a.start.line ≠ b.start.line) (lines : Array String) :
    (lineByLine name new ranges lines).toList = lines.toList.mapIdx (rewriteLine name new ranges) := by
  induction ranges generalizing lines with
  | nil =>
    apply List.ext_getElem?
    intro number
    have same : rewriteLine name new [] number = id := rfl
    simp [lineByLine, same]
  | cons first rest ih =>
    obtain ⟨others, later⟩ := List.pairwise_cons.mp distinct
    have step : lineByLine name new (first :: rest) lines = lineByLine name new rest
        (lines.modify first.start.line (replaceInLine name new first.start.column first.stop.column)) := rfl
    rw [step, ih later, Array.toList_modify]
    apply List.ext_getElem?
    intro number
    rw [List.getElem?_mapIdx, List.getElem?_mapIdx, List.getElem?_modify, Option.map_eq_map, Option.map_map]
    congr 1
    funext line
    exact (rewriteLine_cons others number line).symm

/-- One line: what is replaced is the span that the range means. -/
theorem replaced_line (name new : String) (range : Range) (start : Nat) (line : String) :
    ReplacedFrom start new
      ((lineTarget? name range line).map fun found => (⟨start + found.start, found.length⟩ : Span)).toList line
      (replaceInLine name new range.start.column range.stop.column line) := by
  rw [lineTarget?, replaceInLine]
  split
  · rw [replaceAt]
    cases held : holder? line name (.ofBounds range.start.column range.stop.column) with
    | none => exact .nothing ..
    | some found =>
      obtain ⟨shown, cut, -⟩ := slice?_of_holder? held
      obtain ⟨left, right, rfl, begins, length⟩ := Span.slice?_eq_some_iff.mp cut
      refine ⟨[⟨left, shown⟩], right, rfl, ?_, ?_⟩
      · simp [Cut.spans, begins, length]
      · rw [Option.elim_some, splice_append begins length]
        rfl
  · exact .nothing ..

private theorem replaced_rewriteLine (name new : String) (ranges : List Range) (number start : Nat) (line : String) :
    ReplacedFrom start new
      (((rangeOn? ranges number).bind (lineTarget? name · line)).map fun found =>
        (⟨start + found.start, found.length⟩ : Span)).toList line (rewriteLine name new ranges number line) := by
  rw [rewriteLine]
  cases rangeOn? ranges number with
  | none => exact .nothing ..
  | some range => exact replaced_line name new range start line

private theorem replaced_lineSpans (name new : String) (ranges : List Range) (number start : Nat)
    (lines : List String) :
    ReplacedFrom start new (lineSpans name ranges number start lines) ("\n".intercalate lines)
      ("\n".intercalate (lines.mapIdx fun i => rewriteLine name new ranges (number + i))) := by
  induction lines generalizing number start with
  | nil => exact .nothing ..
  | cons line rest ih =>
    have here := replaced_rewriteLine name new ranges number start line
    cases rest with
    | nil => simpa [lineSpans] using here
    | cons next rest =>
      have later : ReplacedFrom (start + line.utf8ByteSize + "\n".utf8ByteSize) new _ _ _ :=
        ih (number + 1) (start + line.utf8ByteSize + 1)
      have numbers : (fun i => rewriteLine name new ranges (number + (i + 1))) =
          fun i => rewriteLine name new ranges (number + 1 + i) := by
        funext i
        rw [Nat.add_assoc, Nat.add_comm 1 i]
      have some_line : (next :: rest).mapIdx (fun i => rewriteLine name new ranges (number + 1 + i)) ≠ [] := by simp
      have whole := here.concat later.append
      rw [← String.append_assoc, ← String.append_assoc] at whole
      rw [List.mapIdx_cons, numbers, String.intercalate_cons_cons, String.intercalate_cons_of_ne_nil some_line]
      exact whole

/-- A range on a line of a text finds what it finds in the line alone. -/
theorem target?_intercalate {before after : List String} {line : String} {range : Range}
    (free : ∀ other ∈ before ++ line :: after, '\n' ∉ other.toList) (first : range.start.line = before.length)
    (last : range.stop.line = before.length) (name : String) :
    target? (.ofText ("\n".intercalate (before ++ line :: after))) ("\n".intercalate (before ++ line :: after)) name range =
      (lineTarget? name range line).map fun found => ⟨(frontOf before).utf8ByteSize + found.start, found.length⟩ := by
  rw [target?, spanOf?_intercalate free first last, lineTarget?]
  split
  · rename_i fits
    have short : (Span.ofBounds range.start.column range.stop.column).stop ≤ line.utf8ByteSize := by
      have := contentSize_le line
      simp only [Span.ofBounds, Span.stop]
      omega
    rw [intercalate_around, Option.bind_some, ← holder?_within _ _ _ _ _ short]
    rfl
  · rfl

private theorem size_frontOf_cons (line : String) (before : List String) :
    (frontOf (line :: before)).utf8ByteSize = line.utf8ByteSize + 1 + (frontOf before).utf8ByteSize := by
  have newline : "\n".utf8ByteSize = 1 := rfl
  simp [frontOf, String.utf8ByteSize_append, newline]

theorem mem_lineSpans {number start : Nat} {lines : List String} {span : Span} :
    span ∈ lineSpans name ranges number start lines ↔
      ∃ before line after range found, lines = before ++ line :: after ∧
        rangeOn? ranges (number + before.length) = some range ∧ lineTarget? name range line = some found ∧
        span = ⟨start + (frontOf before).utf8ByteSize + found.start, found.length⟩ := by
  induction lines generalizing number start with
  | nil => simp [lineSpans]
  | cons line rest ih =>
    rw [lineSpans, List.mem_append, Option.mem_toList, Option.map_eq_some_iff, ih]
    constructor
    · rintro (⟨found, bound, rfl⟩ | ⟨before, other, after, range, found, rfl, on, target, rfl⟩)
      · obtain ⟨range, on, target⟩ := Option.bind_eq_some_iff.mp bound
        exact ⟨[], line, rest, range, found, rfl, on, target, rfl⟩
      · refine ⟨line :: before, other, after, range, found, rfl, ?_, target, ?_⟩
        · rw [← on, List.length_cons, Nat.add_assoc, Nat.add_comm 1]
        · rw [size_frontOf_cons, Span.mk.injEq]
          omega
    · rintro ⟨before, other, after, range, found, lines, on, target, rfl⟩
      cases before with
      | nil =>
        obtain ⟨rfl, rfl⟩ := List.cons.inj lines
        exact .inl ⟨found, Option.bind_eq_some_iff.mpr ⟨range, on, target⟩, rfl⟩
      | cons first before =>
        obtain ⟨rfl, rfl⟩ := List.cons.inj lines
        refine .inr ⟨before, other, after, range, found, rfl, ?_, target, ?_⟩
        · rw [← on, List.length_cons, Nat.add_assoc, Nat.add_comm 1]
        · rw [size_frontOf_cons, Span.mk.injEq]
          omega

theorem mem_lineSpans_iff_occurs (text : String)
    (single : ∀ range ∈ ranges, range.start.line = range.stop.line)
    (distinct : ranges.Pairwise fun a b => a.start.line ≠ b.start.line) (span : Span) :
    span ∈ lineSpans name ranges 0 0 (rawLines text) ↔ Occurs text name ranges span := by
  have free : ∀ line ∈ rawLines text, '\n' ∉ line.toList := fun _ => newline_not_mem_rawLines
  have whole := intercalate_rawLines text
  rw [mem_lineSpans, occurs_iff]
  constructor
  · rintro ⟨before, line, after, range, found, lines, on, target, rfl⟩
    have member : range ∈ ranges := List.mem_of_find?_eq_some on
    have number : range.start.line = before.length := by
      simpa using List.find?_some on
    refine ⟨range, member, ?_⟩
    rw [lines] at free whole
    rw [← whole, target?_intercalate free number ((single range member).symm.trans number), target]
    simp
  · rintro ⟨range, member, target⟩
    by_cases inside : range.start.line < (rawLines text).length
    · obtain ⟨before, line, after, lines, number, -⟩ := List.exists_of_modify id inside
      rw [lines] at free whole
      rw [← whole, target?_intercalate free number.symm ((single range member).symm.trans number.symm)] at target
      obtain ⟨found, held, rfl⟩ := Option.map_eq_some_iff.mp target
      refine ⟨before, line, after, range, found, lines, ?_, held, by simp⟩
      rw [Nat.zero_add, number]
      exact rangeOn?_of_mem distinct member
    · rw [target?, ← whole, spanOf?_of_length_le free (rawLines_ne_nil text) (by omega)] at target
      cases target

/-- Where the new text has no newline and each range is on a line of its own, the order in which the occurrences are
replaced does not matter, nor whether they are replaced together. -/
theorem sequential_eq_batched (text name : String) {new : String} {ranges : List Range} (whole : '\n' ∉ new.toList)
    (single : ∀ range ∈ ranges, range.start.line = range.stop.line)
    (distinct : ranges.Pairwise fun a b => a.start.line ≠ b.start.line) :
    sequential text name new ranges = batched text name new ranges := by
  have keeps : keepsLines new ranges = true := by
    simpa [keepsLines, whole] using single
  have made := replaced_lineSpans name new ranges 0 0 (rawLines text)
  have spans := accepted_of_apart made.apart (mem_lineSpans_iff_occurs text single distinct)
  simp only [Nat.zero_add] at made
  rw [intercalate_rawLines, ← spans] at made
  rw [sequential, if_pos keeps, toList_lineByLine distinct]
  exact made.unique (replaced_batched text name new ranges)

end CrossRef.Rename

namespace CrossRef.Sample
open Rename

private def threeLines : String := "ab\r\né ab\nab"

private def upwards : List Range := [.onLine 2 0 2, .onLine 1 3 5, .onLine 0 0 2]

theorem replaced_upwards :
    '\n' ∉ "long".toList ∧ (∀ range ∈ upwards, range.start.line = range.stop.line) ∧
      (upwards.Pairwise fun a b => a.start.line ≠ b.start.line) ∧
      sequential threeLines "ab" "long" upwards = "long\r\né long\nlong" ∧
      batched threeLines "ab" "long" upwards = "long\r\né long\nlong" := by
  have whole : '\n' ∉ "long".toList := by decide
  have single : ∀ range ∈ upwards, range.start.line = range.stop.line := by decide
  have distinct : upwards.Pairwise fun a b => a.start.line ≠ b.start.line := by decide
  have made : sequential threeLines "ab" "long" upwards = "long\r\né long\nlong" := by decide +kernel
  exact ⟨whole, single, distinct, made, (sequential_eq_batched threeLines "ab" whole single distinct).symm.trans made⟩

end CrossRef.Sample
