import CrossRef.Proofs.OuterPoints
import CrossRef.Proofs.SimultaneousReplacement

/-! Which spans are replaced together, and in which ways this can be done. Of the spans that hold the name, those are
accepted that overlap none accepted before them, from left to right; the order and the repetitions of the ranges play
no part. The spans are apart from each other, so that they may also be replaced in place, the last one first: whatever
has been replaced behind a span, the span itself still covers what it covered. -/

namespace CrossRef.Syntax

/-- The part of a span that lies inside a text, on character boundaries. -/
def clamped (text : String) (span : Span) : Span :=
  let stop := Text.boundaryBefore text (span.stopIn text.utf8ByteSize)
  .ofBounds (Text.boundaryBefore text (min span.start stop)) stop

private theorem stop_clamped (text : String) (span : Span) :
    (clamped text span).stop = Text.boundaryBefore text (span.stopIn text.utf8ByteSize) := by
  simp only [clamped, Span.ofBounds, Span.stop]
  exact Nat.add_sub_cancel' (ordered_narrow ..)

private theorem narrow_eq (text : String) (span : Span) :
    narrow text span = .ofBounds
      ((clamped text span).start + (pastLastDot? false (((clamped text span).slice? text).getD "").toList).getD 0)
      (clamped text span).stop := by
  rw [stop_clamped]
  rfl

private theorem exists_slice (text : String) (span : Span) :
    ∃ inside, (clamped text span).slice? text = some inside := by
  have last := Text.isBoundary_boundaryBefore text (span.stopIn text.utf8ByteSize)
  rw [Span.slice?, stop_clamped]
  exact ⟨_, dif_pos ⟨Text.isBoundary_boundaryBefore .., last, ordered_narrow ..⟩⟩

/-- Narrowing cuts a text only where it can be cut. All that is dropped is a qualifying path, and what is kept has none. -/
theorem narrow_splits (text : String) (span : Span) :
    ∃ path kept, (clamped text span).slice? text = some (path ++ kept) ∧ (narrow text span).slice? text = some kept ∧
      IsQualifying path.toList ∧ Unqualified kept.toList := by
  obtain ⟨inside, cut⟩ := exists_slice text span
  obtain ⟨path, kept, joined, size, qualifying, unqualified⟩ := exists_qualifying inside.toList
  obtain ⟨left, right, whole, start, length⟩ := Span.slice?_eq_some_iff.mp cut
  have parts : inside = String.ofList path ++ String.ofList kept :=
    String.toList_inj.mp (by rw [joined]; simp)
  have dropped : (String.ofList path).utf8ByteSize = (pastLastDot? false inside.toList).getD 0 := by
    rw [← size, ← Text.size_toList, String.toList_ofList]
  have sizes := congrArg String.utf8ByteSize parts
  rw [String.utf8ByteSize_append, dropped, length] at sizes
  refine ⟨String.ofList path, String.ofList kept, parts ▸ cut, ?_, ?_, ?_⟩
  · rw [narrow_eq, cut, Option.getD_some]
    refine Span.slice?_eq_some_iff.mpr ⟨left ++ String.ofList path, right, ?_, ?_, ?_⟩
    · rw [whole, parts]
      simp only [String.append_assoc]
    · rw [String.utf8ByteSize_append, start, dropped]
      rfl
    · simp only [Span.ofBounds, Span.stop]
      omega
  · rwa [String.toList_ofList]
  · rwa [String.toList_ofList]

private theorem narrow_cuts (text : String) (span : Span) :
    ∃ dropped kept, (clamped text span).slice? text = some (dropped ++ kept) ∧
      (narrow text span).slice? text = some kept := by
  obtain ⟨path, kept, whole, cut, -, -⟩ := narrow_splits text span
  exact ⟨path, kept, whole, cut⟩

end CrossRef.Syntax

namespace CrossRef

def Span.Before (a b : Span) : Prop :=
  a.start < b.start ∨ a.start = b.start ∧ a.length < b.length

private theorem Span.before_wellFounded : WellFounded Span.Before := by
  refine Subrelation.wf (fun {a b} before => ?_)
    (InvImage.wf (fun a : Span => (a.start, a.length)) (Prod.lex Nat.lt_wfRel Nat.lt_wfRel).wf)
  exact Prod.lex_def.mpr before

namespace Rename
open Syntax

/-- A span that one of some ranges means in a text, once it is narrowed. It is not empty, and the name stands there. -/
def Occurs (text name : String) (ranges : List Range) (span : Span) : Prop :=
  ∃ range ∈ ranges, ∃ whole shown, (LineIndex.ofText text).spanOf? range = some whole ∧ narrow text whole = span ∧
    span.length ≠ 0 ∧ span.slice? text = some shown ∧ unquote shown = name

/-- The selection from left to right: of the spans that are offered, those that overlap none chosen before them. -/
structure LeftmostFirst (offered : Span → Prop) (chosen : List Span) : Prop where
  apart : Apart chosen
  mem_iff : ∀ span, span ∈ chosen ↔
    offered span ∧ ∀ earlier ∈ chosen, earlier.Before span → earlier.overlaps span = false

/-- Replaces spans in place, the last one first, each of them in the text that is left by those behind it. This fails
where a span runs past the end of that text or cuts a character of it. -/
def inPlace? (text new : String) : List Span → Option String
  | [] => some text
  | span :: later => do
    let edited ← inPlace? text new later
    let _ ← span.slice? edited
    return splice edited span new

theorem occurs_iff {text name : String} {ranges : List Range} {span : Span} :
    Occurs text name ranges span ↔ ∃ range ∈ ranges, target? (LineIndex.ofText text) text name range = some span := by
  constructor
  · rintro ⟨range, member, whole, shown, means, rfl, filled, cut, named⟩
    refine ⟨range, member, Option.bind_eq_some_iff.mpr ⟨whole, means, ?_⟩⟩
    rw [holder?, holdsName, cut, Option.any_some, Span.isEmpty]
    simp [filled, named]
  · rintro ⟨range, member, found⟩
    obtain ⟨filled, shown, cut, named⟩ := target?_eq_some found
    obtain ⟨whole, means, held⟩ := Option.bind_eq_some_iff.mp found
    have narrowed : narrow text whole = span := by
      simp only [holder?] at held
      split at held
      · exact Option.some.inj held
      · cases held
    exact ⟨range, member, whole, shown, means, narrowed, filled, cut, named⟩

theorem Occurs.filled {text name : String} {ranges : List Range} {span : Span}
    (occurs : Occurs text name ranges span) : span.length ≠ 0 := by
  obtain ⟨_, _, _, _, _, _, filled, _⟩ := occurs
  exact filled

private theorem Apart.not_overlaps {spans : List Span} (apart : Apart spans) {a b : Span} (first : a ∈ spans)
    (second : b ∈ spans) (before : a.Before b) : a.overlaps b = false := by
  have : Std.Symm fun a b : Span => a.overlaps b = false := ⟨fun a b clear => by
    rw [Span.overlaps, Bool.and_comm]
    exact clear⟩
  have clear : spans.Pairwise fun a b => a.overlaps b = false := by
    refine apart.imp fun {a b} behind => ?_
    simp only [Span.overlaps, Bool.and_eq_false_iff, decide_eq_false_iff_not]
    omega
  refine clear.forall first second ?_
  rintro rfl
  simp only [Span.Before] at before
  omega

/-- One step of the selection: what is left out overlaps a span that was chosen before it. -/
private theorem chosen_or_overlaps (previous : Option Span) {spans : List Span}
    (sorted : (previous.toList ++ spans).Pairwise fun a b => (compare a b).isLE = true) {span : Span}
    (member : span ∈ spans) :
    span ∈ withoutOverlaps previous spans ∨
      ∃ earlier ∈ previous.toList ++ withoutOverlaps previous spans,
        (compare earlier span).isLE = true ∧ earlier.overlaps span = true := by
  induction spans generalizing previous with
  | nil => cases member
  | cons first rest ih =>
    obtain ⟨-, later, ordered⟩ := List.pairwise_append.mp sorted
    rw [withoutOverlaps]
    split
    · rename_i overlapping
      rcases List.mem_cons.mp member with rfl | inside
      · obtain ⟨before, rfl, meets⟩ := (Option.any_eq_true ..).mp overlapping
        have known : before ∈ (some before).toList := List.mem_singleton_self _
        exact .inr ⟨before, List.mem_append_left _ known, ordered before known _ (List.mem_cons_self ..), meets⟩
      · refine ih previous (sorted.sublist ?_) inside
        exact (List.Sublist.refl _).append (List.sublist_cons_self ..)
    · rcases List.mem_cons.mp member with rfl | inside
      · exact .inl (List.mem_cons_self ..)
      · rcases ih (some first) later inside with chosen | ⟨earlier, known, le, meets⟩
        · exact .inl (List.mem_cons_of_mem _ chosen)
        · exact .inr ⟨earlier, List.mem_append_right _ known, le, meets⟩

private theorem before_of_isLE {a b : Span} (le : (compare a b).isLE = true) (different : a ≠ b) : a.Before b := by
  have ordered := (compare_isLE_iff a b).mp le
  have lengths : a.start = b.start → a.length ≠ b.length := by
    intro starts same
    cases a
    cases b
    exact different (by rw [Span.mk.injEq]; exact ⟨starts, same⟩)
  simp only [Span.Before]
  omega

private theorem leftmostFirst_withoutOverlaps {spans : List Span}
    (sorted : spans.Pairwise fun a b => (compare a b).isLE = true) (filled : ∀ span ∈ spans, span.length ≠ 0) :
    LeftmostFirst (· ∈ spans) (withoutOverlaps none spans) := by
  have starts : spans.Pairwise fun a b => a.start ≤ b.start := by
    refine sorted.imp fun {a b} le => ?_
    have := (compare_isLE_iff a b).mp le
    omega
  have apart := apart_withoutOverlaps starts filled
  refine ⟨apart, fun span => ⟨?_, ?_⟩⟩
  · intro chosen
    refine ⟨(withoutOverlaps_sublist _ _).subset chosen, ?_⟩
    exact fun earlier known before => apart.not_overlaps known chosen before
  · rintro ⟨offered, clear⟩
    rcases chosen_or_overlaps none sorted offered with chosen | ⟨earlier, known, le, meets⟩
    · exact chosen
    · by_cases same : earlier = span
      · exact same ▸ known
      · rw [clear earlier known (before_of_isLE le same)] at meets
        cases meets

/-- Only one selection goes from left to right. -/
theorem LeftmostFirst.unique {offered : Span → Prop} (filled : ∀ span, offered span → span.length ≠ 0)
    {first second : List Span} (one : LeftmostFirst offered first) (two : LeftmostFirst offered second) :
    first = second := by
  refine one.apart.eq_of_mem_iff two.apart (fun span member => filled span ((one.mem_iff span).mp member).1) ?_
  -- A span is chosen or not by what is chosen before it, so the two selections agree from left to right.
  intro span
  induction span using Span.before_wellFounded.induction with
  | _ span ih =>
    rw [one.mem_iff, two.mem_iff]
    refine and_congr_right fun _ => forall_congr' fun earlier => ?_
    constructor
    · intro clear known before
      exact clear ((ih earlier before).mpr known) before
    · intro clear known before
      exact clear ((ih earlier before).mp known) before

private theorem leftmostFirst_accepted (text name : String) (ranges : List Range) :
    LeftmostFirst (Occurs text name ranges) (accepted text name ranges) := by
  have offered : ∀ span, span ∈ (ranges.filterMap (target? (LineIndex.ofText text) text name)).mergeSort
      (fun a b => (compare a b).isLE) ↔ Occurs text name ranges span := by
    intro span
    rw [List.mem_mergeSort, List.mem_filterMap, occurs_iff]
  have selected := leftmostFirst_withoutOverlaps (pairwise_mergeSort _)
    fun span member => ((offered span).mp member).filled
  refine ⟨selected.apart, fun span => ?_⟩
  rw [← offered span]
  exact selected.mem_iff span

theorem accepted_of_apart {text name : String} {ranges : List Range} {spans : List Span} (apart : Apart spans)
    (occurring : ∀ span, span ∈ spans ↔ Occurs text name ranges span) : accepted text name ranges = spans := by
  refine (leftmostFirst_accepted text name ranges).unique (fun _ => Occurs.filled) ⟨apart, fun span => ?_⟩
  rw [← occurring span]
  exact ⟨fun member => ⟨member, fun earlier known before => apart.not_overlaps known member before⟩, And.left⟩

private theorem accepted_congr {text name : String} {ranges others : List Range}
    (same : ∀ range, range ∈ others ↔ range ∈ ranges) : accepted text name others = accepted text name ranges := by
  have offered : Occurs text name others = Occurs text name ranges := by
    funext span
    simp only [Occurs, same]
  refine LeftmostFirst.unique (fun _ => Occurs.filled) ?_ (leftmostFirst_accepted text name ranges)
  exact offered ▸ leftmostFirst_accepted text name others

/-- What stands before the spans is not touched when they are replaced in place. -/
theorem ReplacedFrom.inPlace? {front new text result : String} {spans : List Span}
    (replaced : ReplacedFrom front.utf8ByteSize new spans text result) :
    inPlace? (front ++ text) new spans = some (front ++ result) := by
  obtain ⟨cuts, rest, rfl, rfl, rfl⟩ := replaced
  induction cuts generalizing front with
  | nil => rfl
  | cons cut cuts ih =>
    have regroup : ∀ shown tail : String,
        front ++ (cut.kept ++ shown ++ tail) = front ++ cut.kept ++ shown ++ tail := by
      intro shown tail
      simp only [String.append_assoc]
    have start : (front ++ cut.kept).utf8ByteSize = front.utf8ByteSize + cut.kept.utf8ByteSize :=
      String.utf8ByteSize_append
    have behind : (front ++ cut.kept ++ cut.shown).utf8ByteSize =
        front.utf8ByteSize + cut.kept.utf8ByteSize + cut.shown.utf8ByteSize := by
      rw [String.utf8ByteSize_append, start]
    have edited := @ih (front ++ cut.kept ++ cut.shown)
    have covered : Span.slice? ⟨front.utf8ByteSize + cut.kept.utf8ByteSize, cut.shown.utf8ByteSize⟩
        (front ++ cut.kept ++ cut.shown ++ Cut.newText new rest cuts) = some cut.shown :=
      Span.slice?_eq_some_iff.mpr ⟨front ++ cut.kept, _, rfl, start, rfl⟩
    rw [behind] at edited
    rw [Cut.oldText, Cut.newText, Cut.spans, Rename.inPlace?, regroup, regroup, edited]
    simp only [Option.bind_eq_bind, Option.bind_some, covered]
    exact congrArg some (splice_append start rfl new)

/-- Replacing all occurrences together. Nothing is cut outside the text or inside a character: neither when ranges are
narrowed, nor when the accepted spans are replaced in place from the last one to the first. -/
theorem batched_simultaneous (text name new : String) (ranges : List Range) :
    (∀ span, ∃ dropped kept, (clamped text span).slice? text = some (dropped ++ kept) ∧
      (narrow text span).slice? text = some kept) ∧
    LeftmostFirst (Occurs text name ranges) (accepted text name ranges) ∧
    Replaced new (accepted text name ranges) text (batched text name new ranges) ∧
    inPlace? text new (accepted text name ranges) = some (batched text name new ranges) ∧
    ∀ others : List Range, (∀ range, range ∈ others ↔ range ∈ ranges) →
      batched text name new others = batched text name new ranges := by
  have replaced := replaced_batched text name new ranges
  refine ⟨narrow_cuts text, leftmostFirst_accepted text name ranges, replaced, ?_, ?_⟩
  · have made : ReplacedFrom "".utf8ByteSize new (accepted text name ranges) text (batched text name new ranges) :=
      replaced
    simpa only [String.empty_append] using made.inPlace?
  · intro others same
    rw [batched, accepted_congr same, batched]

end Rename

namespace Sample
open Rename

/-- In the text `x.ab é ab`: ranges that overlap, one that is in the wrong order, one that cuts a letter of two bytes, one
behind the text. -/
private def scattered : List Range :=
  [.onLine 0 0 4, .onLine 0 2 4, .onLine 0 4 2, .onLine 0 5 6, .onLine 0 8 10, .onLine 3 0 2]

private theorem scattered_batched : batched "x.ab é ab" "ab" "c" scattered = "x.c é c" := by
  have targets : scattered.filterMap (target? (.ofText "x.ab é ab") "x.ab é ab" "ab") = [⟨2, 2⟩, ⟨2, 2⟩, ⟨8, 2⟩] := by
    decide +kernel
  have sorted : [(⟨2, 2⟩ : Span), ⟨2, 2⟩, ⟨8, 2⟩].Pairwise fun a b => (compare a b).isLE = true := by decide
  have chosen : accepted "x.ab é ab" "ab" scattered = [⟨2, 2⟩, ⟨8, 2⟩] := by
    rw [accepted, targets, List.mergeSort_of_pairwise sorted]
    decide
  have pieces : String.join (pieces "x.ab é ab" "c" 0 [⟨2, 2⟩, ⟨8, 2⟩]) = "x.c é c" := by decide
  rw [batched, chosen, pieces]

theorem scattered_in_any_order :
    (∀ range, range ∈ scattered.reverse ++ scattered ↔ range ∈ scattered) ∧
      batched "x.ab é ab" "ab" "c" (scattered.reverse ++ scattered) = "x.c é c" := by
  have same : ∀ range, range ∈ scattered.reverse ++ scattered ↔ range ∈ scattered := by simp
  obtain ⟨-, -, -, -, congr⟩ := batched_simultaneous "x.ab é ab" "ab" "c" scattered
  exact ⟨same, (congr _ same).trans scattered_batched⟩

end Sample

end CrossRef
