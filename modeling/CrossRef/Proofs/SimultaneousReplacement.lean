import CrossRef.Rename.Replace
import Mathlib.Data.List.Pairwise

/-! Replacing all occurrences of a name together. The text falls into parts that are kept and parts, in order
and apart from each other, in whose place the new text is put. -/

namespace CrossRef.Rename
open Syntax

/-- A part of a text that is kept, and the part right behind it that is replaced. -/
structure Cut where
  kept : String
  shown : String

theorem append_inj_of_size {front back left right : String} (same : front ++ back = left ++ right)
    (sizes : front.utf8ByteSize = left.utf8ByteSize) : front = left ∧ back = right := by
  obtain ⟨more, rfl, rest⟩ := Text.exists_append_of_size_le same (Nat.le_of_eq sizes)
  rw [String.utf8ByteSize_append] at sizes
  obtain rfl : more = "" := String.utf8ByteSize_eq_zero_iff.mp (by omega)
  simpa using rest

namespace Cut

def oldText (rest : String) : List Cut → String
  | [] => rest
  | cut :: cuts => cut.kept ++ cut.shown ++ oldText rest cuts

def newText (new rest : String) : List Cut → String
  | [] => rest
  | cut :: cuts => cut.kept ++ new ++ newText new rest cuts

def spans : (start : Nat) → List Cut → List Span
  | _, [] => []
  | start, cut :: cuts =>
    ⟨start + cut.kept.utf8ByteSize, cut.shown.utf8ByteSize⟩ ::
      spans (start + cut.kept.utf8ByteSize + cut.shown.utf8ByteSize) cuts

end Cut

/-- A text that begins at an offset, with something new in place of what stands under each of some spans. -/
def ReplacedFrom (start : Nat) (new : String) (spans : List Span) (text result : String) : Prop :=
  ∃ cuts rest, text = Cut.oldText rest cuts ∧ spans = Cut.spans start cuts ∧ result = Cut.newText new rest cuts

def Replaced (new : String) (spans : List Span) (text result : String) : Prop :=
  ReplacedFrom 0 new spans text result

namespace ReplacedFrom

variable {start : Nat} {new text result : String} {spans : List Span}

theorem nothing (start : Nat) (new text : String) : ReplacedFrom start new [] text text :=
  ⟨[], text, rfl, rfl, rfl⟩

private theorem size_ofList (text : List Char) : (String.ofList text).utf8ByteSize = Text.size text := by
  rw [← Text.size_toList, String.toList_ofList]

theorem append {front text result : String}
    (replaced : ReplacedFrom (start + front.utf8ByteSize) new spans text result) :
    ReplacedFrom start new spans (front ++ text) (front ++ result) := by
  obtain ⟨cuts, rest, rfl, rfl, rfl⟩ := replaced
  cases cuts with
  | nil => exact ⟨[], front ++ rest, rfl, rfl, rfl⟩
  | cons cut cuts =>
    refine ⟨⟨front ++ cut.kept, cut.shown⟩ :: cuts, rest, ?_, ?_, ?_⟩
    · simp [Cut.oldText, String.append_assoc]
    · simp [Cut.spans, String.utf8ByteSize_append, Nat.add_assoc]
    · simp [Cut.newText, String.append_assoc]

theorem behind {front cs ds : List Char}
    (replaced : ReplacedFrom (start + Text.size front) new spans (String.ofList cs) (String.ofList ds)) :
    ReplacedFrom start new spans (String.ofList (front ++ cs)) (String.ofList (front ++ ds)) := by
  rw [String.ofList_append, String.ofList_append]
  apply append
  rwa [size_ofList]

theorem renamed {shown cs ds : List Char}
    (replaced : ReplacedFrom (start + Text.size shown) new spans (String.ofList cs) (String.ofList ds)) :
    ReplacedFrom start new (⟨start, Text.size shown⟩ :: spans) (String.ofList (shown ++ cs))
      (String.ofList (new.toList ++ ds)) := by
  obtain ⟨cuts, rest, old, rfl, made⟩ := replaced
  rw [String.ofList_append, String.ofList_append, old, made]
  refine ⟨⟨"", String.ofList shown⟩ :: cuts, rest, ?_, ?_, ?_⟩
  · simp [Cut.oldText]
  · simp [Cut.spans, size_ofList]
  · simp [Cut.newText]

/-- The text and the spans determine what comes out. -/
theorem unique {other : String} (replaced : ReplacedFrom start new spans text result)
    (again : ReplacedFrom start new spans text other) : result = other := by
  obtain ⟨cuts, rest, rfl, rfl, rfl⟩ := replaced
  obtain ⟨others, last, texts, places, rfl⟩ := again
  induction cuts generalizing start others with
  | nil =>
    cases others with
    | nil => exact texts
    | cons cut others => cases places
  | cons cut cuts ih =>
    cases others with
    | nil => cases places
    | cons next others =>
      simp only [Cut.spans, List.cons.injEq, Span.mk.injEq] at places
      obtain ⟨⟨begins, sizes⟩, later⟩ := places
      have equalKept : cut.kept.utf8ByteSize = next.kept.utf8ByteSize := by omega
      simp only [Cut.oldText, String.append_assoc] at texts
      obtain ⟨kept, tails⟩ := append_inj_of_size texts equalKept
      obtain ⟨-, tails⟩ := append_inj_of_size tails sizes
      rw [Cut.newText, Cut.newText, kept, ih others tails (by rw [later, equalKept, sizes])]

theorem filter {front text result : String} {spans : List Span} {p : Span → Bool}
    (replaced : ReplacedFrom front.utf8ByteSize new spans text result)
    (same : ∀ span ∈ spans, p span = false → span.slice? (front ++ text) = some new) :
    ReplacedFrom front.utf8ByteSize new (spans.filter p) text result := by
  obtain ⟨cuts, rest, rfl, rfl, rfl⟩ := replaced
  induction cuts generalizing front with
  | nil => exact nothing ..
  | cons cut cuts ih =>
    have regroup : front ++ Cut.oldText rest (cut :: cuts) = front ++ cut.kept ++ cut.shown ++ Cut.oldText rest cuts := by
      simp only [Cut.oldText, String.append_assoc]
    have size : (front ++ cut.kept ++ cut.shown).utf8ByteSize =
        front.utf8ByteSize + cut.kept.utf8ByteSize + cut.shown.utf8ByteSize := by
      simp only [String.utf8ByteSize_append]
    rw [Cut.spans, ← size, List.forall_mem_cons, regroup] at same
    have later := ih same.2
    rw [Cut.spans, ← size, Cut.oldText, Cut.newText]
    cases chosen : p ⟨front.utf8ByteSize + cut.kept.utf8ByteSize, cut.shown.utf8ByteSize⟩ with
    | true =>
      obtain ⟨kept, last, old, places, made⟩ := later
      rw [List.filter_cons_of_pos chosen, places, old, made]
      exact ⟨cut :: kept, last, rfl, by rw [Cut.spans, ← size], rfl⟩
    | false =>
      have here : Span.slice? ⟨front.utf8ByteSize + cut.kept.utf8ByteSize, cut.shown.utf8ByteSize⟩
          (front ++ cut.kept ++ cut.shown ++ Cut.oldText rest cuts) = some cut.shown :=
        Span.slice?_eq_some_iff.mpr ⟨front ++ cut.kept, _, rfl, String.utf8ByteSize_append, rfl⟩
      obtain rfl : cut.shown = new := Option.some.inj (here.symm.trans (same.1 chosen))
      rw [List.filter_cons_of_neg (by simp [chosen])]
      apply append
      rwa [String.utf8ByteSize_append, ← Nat.add_assoc, ← size]

end ReplacedFrom

def Apart (spans : List Span) : Prop :=
  spans.Pairwise fun a b => a.stop ≤ b.start

theorem Apart.eq_of_mem_iff {first second : List Span} (one : Apart first) (two : Apart second)
    (filled : ∀ span ∈ first, span.length ≠ 0) (same : ∀ span, span ∈ first ↔ span ∈ second) : first = second := by
  have distinct : ∀ {spans : List Span}, Apart spans → (∀ span ∈ spans, span.length ≠ 0) → spans.Nodup := by
    intro spans apart filled
    refine apart.imp_of_mem ?_
    rintro a b member - behind rfl
    have := filled a member
    simp only [Span.stop] at behind
    omega
  have others : ∀ span ∈ second, span.length ≠ 0 := fun span member => filled span ((same span).mpr member)
  have perm : first.Perm second :=
    (List.perm_ext_iff_of_nodup (distinct one filled) (distinct two others)).mpr same
  refine perm.eq_of_pairwise ?_ one two
  intro a b member _ ahead behind
  have := filled a member
  simp only [Span.stop] at ahead behind
  omega

theorem compare_isLE_iff (a b : Span) :
    (compare a b).isLE = true ↔ a.start < b.start ∨ a.start = b.start ∧ a.length ≤ b.length := by
  change ((compare a.start b.start).then (compare a.length b.length)).isLE = true ↔ _
  rcases Nat.lt_trichotomy a.start b.start with less | same | more
  · simp [Nat.compare_eq_lt.mpr less, less]
  · simp [same, Nat.isLE_compare]
  · rw [Nat.compare_eq_gt.mpr more]
    simp only [Ordering.then, Ordering.isLE]
    constructor
    · simp
    · omega

theorem pairwise_mergeSort (spans : List Span) :
    (spans.mergeSort fun a b => (compare a b).isLE).Pairwise fun a b => (compare a b).isLE = true := by
  apply List.pairwise_mergeSort
  · intro a b c first second
    rw [compare_isLE_iff] at first second ⊢
    omega
  · intro a b
    rw [Bool.or_eq_true, compare_isLE_iff, compare_isLE_iff]
    omega

theorem pairwise_start_mergeSort (spans : List Span) :
    (spans.mergeSort fun a b => (compare a b).isLE).Pairwise fun a b => a.start ≤ b.start := by
  refine (pairwise_mergeSort spans).imp ?_
  intro a b ordered
  have := (compare_isLE_iff a b).mp ordered
  omega

theorem withoutOverlaps_sublist (previous : Option Span) (spans : List Span) :
    (withoutOverlaps previous spans).Sublist spans := by
  induction spans generalizing previous with
  | nil => exact .slnil
  | cons span rest ih =>
    rw [withoutOverlaps]
    split
    · exact (ih _).cons _
    · exact (ih _).cons_cons _

private theorem stop_le_of_not_overlaps {a b : Span} (ordered : a.start ≤ b.start) (filled : b.length ≠ 0)
    (apart : a.overlaps b = false) : a.stop ≤ b.start := by
  by_contra inside
  have both : a.overlaps b = true := by
    rw [Span.overlaps, Bool.and_eq_true, decide_eq_true_eq, decide_eq_true_eq]
    simp only [Span.stop] at inside ⊢
    omega
  rw [both] at apart
  cases apart

private theorem apart_behind {previous : Span} {spans : List Span}
    (sorted : (previous :: spans).Pairwise fun a b => a.start ≤ b.start) (filled : ∀ span ∈ spans, span.length ≠ 0) :
    Apart (previous :: withoutOverlaps (some previous) spans) := by
  induction spans generalizing previous with
  | nil => simp [withoutOverlaps, Apart]
  | cons span rest ih =>
    have later := (List.pairwise_cons.mp sorted).2
    have filledRest : ∀ other ∈ rest, other.length ≠ 0 :=
      fun other inside => filled other (List.mem_cons_of_mem _ inside)
    rw [withoutOverlaps, Option.any_some]
    split
    · exact ih (sorted.sublist (by simp)) filledRest
    · rename_i apart
      have next := ih later filledRest
      refine List.pairwise_cons.mpr ⟨?_, next⟩
      have first : previous.stop ≤ span.start :=
        stop_le_of_not_overlaps ((List.pairwise_cons.mp sorted).1 span (List.mem_cons_self ..))
          (filled span (List.mem_cons_self ..)) (by simpa using apart)
      intro other member
      rcases List.mem_cons.mp member with rfl | inside
      · exact first
      · have behind := (List.pairwise_cons.mp next).1 other inside
        simp only [Span.stop] at first behind ⊢
        omega

theorem apart_withoutOverlaps {spans : List Span} (sorted : spans.Pairwise fun a b => a.start ≤ b.start)
    (filled : ∀ span ∈ spans, span.length ≠ 0) : Apart (withoutOverlaps none spans) := by
  cases spans with
  | nil => exact List.Pairwise.nil
  | cons span rest =>
    exact apart_behind sorted fun other inside => filled other (List.mem_cons_of_mem _ inside)

theorem target?_eq_some {index : LineIndex} {text name : String} {range : Range} {span : Span}
    (found : target? index text name range = some span) :
    span.length ≠ 0 ∧ ∃ shown, span.slice? text = some shown ∧ unquote shown = name := by
  obtain ⟨whole, -, held⟩ := Option.bind_eq_some_iff.mp found
  refine ⟨?_, slice?_of_holder? held⟩
  simp only [holder?] at held
  split at held
  · rename_i accepted
    cases held
    simp only [Span.isEmpty, Bool.and_eq_true] at accepted
    simpa using accepted.1
  · cases held

section accepted

variable (text name : String) (ranges : List Range)

theorem apart_accepted : Apart (accepted text name ranges) := by
  apply apart_withoutOverlaps (pairwise_start_mergeSort _)
  intro span member
  obtain ⟨range, -, found⟩ := List.mem_filterMap.mp (List.mem_mergeSort.mp member)
  exact (target?_eq_some found).1

theorem target_of_accepted {span : Span} (member : span ∈ accepted text name ranges) :
    ∃ range ∈ ranges, target? (LineIndex.ofText text) text name range = some span := by
  have kept := (withoutOverlaps_sublist _ _).subset member
  obtain ⟨range, listed, found⟩ := List.mem_filterMap.mp (List.mem_mergeSort.mp kept)
  exact ⟨range, listed, found⟩

theorem accepted_shows {span : Span} (member : span ∈ accepted text name ranges) :
    span.length ≠ 0 ∧ ∃ shown, span.slice? text = some shown ∧ unquote shown = name := by
  obtain ⟨range, -, found⟩ := target_of_accepted text name ranges member
  exact target?_eq_some found

end accepted

private theorem exists_cuts {front back new : String} {spans : List Span} (apart : Apart spans)
    (behind : ∀ span ∈ spans, front.utf8ByteSize ≤ span.start)
    (inside : ∀ span ∈ spans, ∃ shown, span.slice? (front ++ back) = some shown) :
    ∃ cuts rest, back = Cut.oldText rest cuts ∧ spans = Cut.spans front.utf8ByteSize cuts ∧
      String.join (pieces (front ++ back) new front.utf8ByteSize spans) = Cut.newText new rest cuts := by
  induction spans generalizing front back with
  | nil =>
    have found := Text.between?_append front back ""
    rw [String.append_empty] at found
    exact ⟨[], back, rfl, rfl, by rw [pieces, found]; simp [Cut.newText]⟩
  | cons span later ih =>
    obtain ⟨shown, cut⟩ := inside span (List.mem_cons_self ..)
    obtain ⟨left, right, whole, start, length⟩ := Span.slice?_eq_some_iff.mp cut
    obtain ⟨kept, rfl, rest⟩ := Text.exists_append_of_size_le
      (whole.trans (String.append_assoc ..)) (by rw [start]; exact behind span (List.mem_cons_self ..))
    obtain rfl : back = kept ++ shown ++ right := by rw [rest, String.append_assoc]
    have regroup : front ++ (kept ++ shown ++ right) = front ++ kept ++ shown ++ right := by
      simp [String.append_assoc]
    have stop : span.stop = (front ++ kept ++ shown).utf8ByteSize := by
      rw [Span.stop, ← start, ← length, ← String.utf8ByteSize_append]
    obtain ⟨ordered, apart⟩ := List.pairwise_cons.mp apart
    obtain ⟨cuts, last, old, places, made⟩ := ih apart
      (fun other member => stop ▸ ordered other member)
      (fun other member => regroup ▸ inside other (List.mem_cons_of_mem _ member))
    have gap : Text.between? (front ++ (kept ++ shown ++ right)) front.utf8ByteSize span.start = some kept := by
      have found := Text.between?_append front kept (shown ++ right)
      rwa [start, ← String.append_assoc, ← regroup] at found
    refine ⟨⟨kept, shown⟩ :: cuts, last, by rw [Cut.oldText, ← old], ?_, ?_⟩
    · have here : span = ⟨front.utf8ByteSize + kept.utf8ByteSize, shown.utf8ByteSize⟩ := by
        rw [← String.utf8ByteSize_append, start, length]
      rw [Cut.spans, ← here, places, String.utf8ByteSize_append, String.utf8ByteSize_append]
    · rw [pieces, gap, stop, regroup, String.join_cons, String.join_cons, made, Cut.newText, Option.getD_some,
        String.append_assoc]

/-- Replacing all occurrences together puts the new text in place of the accepted spans. -/
theorem replaced_batched (text name new : String) (ranges : List Range) :
    Replaced new (accepted text name ranges) text (batched text name new ranges) := by
  have behind : ∀ span ∈ accepted text name ranges, "".utf8ByteSize ≤ span.start :=
    fun span _ => Nat.zero_le span.start
  have inside : ∀ span ∈ accepted text name ranges, ∃ shown, span.slice? ("" ++ text) = some shown := by
    intro span member
    obtain ⟨-, shown, cut, -⟩ := accepted_shows text name ranges member
    exact ⟨shown, by rwa [String.empty_append]⟩
  obtain ⟨cuts, rest, old, spans, made⟩ := exists_cuts (apart_accepted text name ranges) behind inside
  rw [String.empty_append] at made
  exact ⟨cuts, rest, old, spans, made⟩

end CrossRef.Rename
