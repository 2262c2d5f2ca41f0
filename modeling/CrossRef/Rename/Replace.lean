import CrossRef.Rename.LineByLine
import CrossRef.Rename.Strategy

/-! Replacing the occurrences of a name in a text, all together or one after the other. -/

namespace CrossRef.Rename

/-- Drops each span that overlaps the one kept before it. -/
def withoutOverlaps : (previous : Option Span) → List Span → List Span
  | _, [] => []
  | previous, span :: rest =>
    if previous.any (·.overlaps span) then withoutOverlaps previous rest
    else span :: withoutOverlaps (some span) rest

/-- The spans that are replaced together: from left to right, and none that overlaps an earlier one. -/
def accepted (text name : String) (ranges : List Range) : List Span :=
  let index := LineIndex.ofText text
  withoutOverlaps none
    ((ranges.filterMap (target? index text name)).mergeSort fun a b => (compare a b).isLE)

/-- The text from an offset on, cut at spans that are in order: what stands between them is kept, and each
of them is replaced. -/
def pieces (text new : String) : (start : Nat) → List Span → List String
  | start, [] => [(Text.between? text start text.utf8ByteSize).getD ""]
  | start, span :: rest =>
    (Text.between? text start span.start).getD "" :: new :: pieces text new span.stop rest

/-- Replaces all occurrences, found in the one given text. -/
def batched (text name new : String) (ranges : List Range) : String :=
  String.join (pieces text new 0 (accepted text name ranges))

/-- Replaces one occurrence after the other, each of them found in the text as it is by then. Where the
lines stay the same, it is enough to look at the line of each occurrence. -/
def sequential (text name new : String) (ranges : List Range) : String :=
  if keepsLines new ranges then
    "\n".intercalate (lineByLine name new ranges (rawLines text).toArray).toList
  else
    ranges.foldl (replaceOne name new) text

theorem sequential_eq (text name new : String) (ranges : List Range) :
    sequential text name new ranges = ranges.foldl (replaceOne name new) text := by
  unfold sequential
  split
  · rename_i keeps
    have free : ∀ line ∈ (rawLines text).toArray.toList, '\n' ∉ line.toList :=
      fun line inside => newline_not_mem_rawLines inside
    rw [intercalate_lineByLine keeps _ free (rawLines_ne_nil text), List.toList_toArray, intercalate_rawLines]
  · rfl

/-- Replaces the occurrences of a name at the given ranges. -/
def replace (strategy : Strategy) (text name new : String) (ranges : List Range) : String :=
  match strategy with
  | .batched => batched text name new ranges
  | .sequential => sequential text name new ranges

end CrossRef.Rename
