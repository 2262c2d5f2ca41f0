import CrossRef.Proofs.CursorTarget
import CrossRef.Proofs.FileUsesFound
import CrossRef.Proofs.OffsetPositions
import CrossRef.Proofs.SelectedTokens
import CrossRef.Proofs.WrittenLocations

/-! Printed references. What a report shows of a use, its file's name and where it starts counted from one, can be handed
back as a location. The location is read as it was written, it means the offset of the use's own token, and a cursor there
is resolved to the same symbol at the same place. -/

namespace CrossRef
open Check Syntax

namespace Solution

variable {lookup : Lookup} {s : Solution} {document : Document}

private theorem recorded_of_use {uses : List Use}
    (checked : ((Service.plain lookup).checkDocument s document).run = .ok (some uses))
    {u : Use} (reported : u ∈ uses) :
    ∃ m b, (m, some b) ∈ s.recorded document ∧ u.symbol = b.symbol ∧ u.place = ⟨document.path, m.token.range⟩ := by
  obtain ⟨options, present, listed, rfl⟩ := Service.checkDocument_plain checked
  obtain ⟨m, b, resolved, symbol, place⟩ := Environment.mem_uses reported
  refine ⟨m, b, ?_, symbol, place⟩
  rwa [recorded, present, Option.elim_some, if_pos listed]

private theorem recorded_unique {m n : Mark} {b c : Binding} (first : (m, some b) ∈ s.recorded document)
    (second : (n, some c) ∈ s.recorded document) (same : m.token = n.token) : b = c := by
  obtain ⟨options, present, -, one⟩ := mem_recorded first
  obtain ⟨others, also, -, two⟩ := mem_recorded second
  obtain rfl := Option.some.inj (present.symm.trans also)
  have pairs := List.inj_on_of_nodup_map (Environment.nodup_tokens ..) one two same
  exact Option.some.inj (congrArg Prod.snd pairs)

private theorem token_of_recorded {m : Mark} {b : Binding} (recorded : (m, some b) ∈ s.recorded document) :
    m.token ∈ s.tokens document ∧ m.token.isIdentifier = true := by
  obtain ⟨options, present, -, resolved⟩ := mem_recorded recorded
  rw [tokens, present, Option.elim_some]
  exact identifier_of_mark (Environment.name_of_resolution resolved).1

private theorem selects_start {t : Token} (member : t ∈ s.tokens document) (named : t.isIdentifier = true)
    (boundary : Text.isBoundary document.text t.span.start = true) : s.Selects document lookup t.span.start t := by
  obtain ⟨options, present, listed⟩ := mem_tokens member
  have filled := filled_of_mem_allTokens (mem_allTokens member)
  have inside : t.span.contains t.span.start = true := by simp [Span.contains, Span.stop, filled]
  have name := isName_of_isIdentifier named
  obtain ⟨candidate, pointed⟩ := Option.isSome_iff_exists.mp
    (isSome_candidateAt.mpr ⟨t, listed, name, .inl inside⟩)
  refine ⟨member, candidate, ?_, span_of_candidateAt listed name inside pointed⟩
  rw [candidateAt_plain boundary, present, Option.bind_some, pointed]

/-- A cursor at the start of a recorded identifier is resolved to what is recorded there. -/
theorem resolveAt_start {m : Mark} {b : Binding} (recorded : (m, some b) ∈ s.recorded document)
    (boundary : Text.isBoundary document.text m.token.span.start = true) :
    ∃ resolved, ((Service.plain lookup).resolveAt s document m.token.span.start).run = .ok (some resolved) ∧
      resolved.use.place = ⟨document.path, m.token.range⟩ ∧ resolved.use.symbol = b.symbol := by
  obtain ⟨member, named⟩ := token_of_recorded recorded
  have selected : s.Selects document lookup m.token.span.start m.token := selects_start member named boundary
  obtain ⟨resolved, found⟩ := exists_resolveAt boundary selected rfl recorded
  obtain ⟨t, n, c, also, -, token, other, symbol, place, -⟩ := resolveAt_eq_some boundary found
  obtain rfl := selects_unique selected also
  obtain rfl := recorded_unique recorded other token.symm
  exact ⟨resolved, found, place, symbol⟩

end Solution

namespace Location

variable {text : String} {t : Token}

private theorem offsetOf?_of_mem_allTokens (member : t ∈ allTokens text) :
    (LineIndex.ofText text).offsetOf? t.range.start = some t.span.start := by
  obtain ⟨_, _, _, _, _, -, -, -, -, means⟩ := place_of_mem_allTokens member
  obtain ⟨start, offset, rest⟩ := Option.bind_eq_some_iff.mp means
  obtain ⟨stop, -, whole⟩ := Option.bind_eq_some_iff.mp rest
  obtain rfl : start = t.span.start := congrArg Span.start (Option.some.inj (Option.ite_none_right_eq_some.mp whole).2)
  exact offset

private theorem offsetIn_of_mem_allTokens (member : t ∈ allTokens text) {l : Location}
    (position : l.position = t.range.start) :
    l.offsetIn text = .ok t.span.start := by
  have offset := offsetOf?_of_mem_allTokens member
  obtain ⟨span, _, line, -⟩ := shown_on_line member
  have number : (LineIndex.ofText text).lineSpan? l.position.line = some span := by
    rw [position]
    exact line
  have boundary := (Text.isBoundary_of_between? (Rename.slice?_of_mem_allTokens member)).1
  rw [← position] at offset
  simp only [offsetIn, number, offset, boundary, if_true]

/-- What is shown of the place of a token can be written down, if the text is short enough. -/
theorem counted_of_mem_allTokens (member : t ∈ allTokens text) (short : text.utf8ByteSize < bound) :
    (0 < t.line + 1 ∧ t.line + 1 < bound) ∧ 0 < t.column + 1 ∧ t.column + 1 < bound := by
  have sum : t.line + t.column ≤ t.span.start :=
    LineIndex.line_add_column_le (LineIndex.positionOf?_of_offsetOf? (offsetOf?_of_mem_allTokens member))
  have filled := filled_of_mem_allTokens member
  have last : t.span.start + t.span.length ≤ text.utf8ByteSize :=
    Text.le_utf8ByteSize_of_isBoundary (Text.isBoundary_of_between? (Rename.slice?_of_mem_allTokens member)).2
  omega

end Location

/-- Printed locations lead back. If a file's name, the line and the column that are shown of a use are written as a
location, then reading it gives the offset where the token of the use starts, and a cursor there is resolved to the same
symbol at the same place. Reading undoes writing, both for locations that have been read and for all others with a name
that can be written. Lines and columns are below 2^32, so the text has to be shorter than that. -/
theorem printed_locations_lead_back (lookup : Lookup) (s : Solution) (document : Document) :
    (∀ uses, ((Service.plain lookup).checkDocument s document).run = .ok (some uses) →
      document.text.utf8ByteSize < Location.bound → ∀ u ∈ uses, ∀ file, Location.IsFileName file →
        ∃ l t, Location.parse (file ++ ":" ++ toString u.place.range.start.toDisplay.1 ++ ":" ++
            toString u.place.range.start.toDisplay.2) = .ok l ∧
          t ∈ s.tokens document ∧ u.place = ⟨document.path, t.range⟩ ∧
          l.offsetIn document.text = .ok t.span.start ∧
          ∃ resolved, ((Service.plain lookup).resolveAt s document t.span.start).run = .ok (some resolved) ∧
            resolved.use.place = u.place ∧ resolved.use.symbol = u.symbol) ∧
    (∀ input l, Location.parse input = .ok l → Location.parse l.text = .ok l) ∧
    ∀ file line column, Location.IsFileName file → 0 < line ∧ line < Location.bound →
      0 < column ∧ column < Location.bound →
        Location.parse (Location.text ⟨.ofText file, line, column⟩) = .ok ⟨.ofText file, line, column⟩ := by
  refine ⟨?_, ?_, ?_⟩
  · intro uses checked short u reported file named
    obtain ⟨m, b, recorded, symbol, place⟩ := Solution.recorded_of_use checked reported
    have member := (Solution.token_of_recorded recorded).1
    have known := Solution.mem_allTokens member
    obtain ⟨line, column⟩ := Location.counted_of_mem_allTokens known short
    let l : Location := ⟨.ofText file, m.token.line + 1, m.token.column + 1⟩
    have writable : l.Writable := ⟨named, line, column⟩
    obtain ⟨resolved, found, same⟩ := Solution.resolveAt_start recorded
      (Text.isBoundary_of_between? (Rename.slice?_of_mem_allTokens known)).1
    rw [place, symbol]
    exact ⟨l, m.token, writable.parse_text, member, rfl, Location.offsetIn_of_mem_allTokens known rfl, resolved, found,
      same⟩
  · intro input l read
    exact (Location.writable_of_parse read).parse_text
  · intro file line column named first second
    exact Location.Writable.parse_text ⟨named, first, second⟩

namespace Sample

/-- The client's file under a name that looks like a location itself. -/
theorem client_location_read : ∃ l resolved, Location.parse "a b:2:1:9" = .ok l ∧ l.offsetIn client.text = .ok 8 ∧
    ((Service.plain .precise).resolveAt solution client 8).run = .ok (some resolved) ∧
    resolved.use.place = clientUse.place ∧ resolved.use.symbol = clientUse.symbol ∧
    Location.parse " a.ml:3\t" = .ok ⟨.ofText "a.ml", 3, 1⟩ ∧ Location.parse "a.ml:3:1" = .ok ⟨.ofText "a.ml", 3, 1⟩ ∧
    Location.parse "a:7:4294967295:1" = .ok ⟨.ofText "a:7", 4294967295, 1⟩ := by
  obtain ⟨resolved, found, use⟩ := client_resolved
  obtain ⟨checked, reported⟩ := Service.resolveAt_plain found
  rw [use] at reported
  have named : Location.IsFileName "a b:2" := ⟨by decide, by decide⟩
  obtain ⟨back, again, all⟩ := printed_locations_lead_back .precise solution client
  obtain ⟨l, t, read, member, place, offset, shown⟩ := back _ checked (by decide) clientUse reported "a b:2" named
  obtain rfl : t = reference.token :=
    eq_of_range (Solution.mem_allTokens member) (by decide) (Place.mk.inj place).2.symm
  obtain ⟨resolved, found, place, symbol⟩ := shown
  have spaced : Location.parse " a.ml:3\t" = .ok ⟨.ofText "a.ml", 3, 1⟩ := by decide
  have reread := again _ _ spaced
  have numbered := all "a:7" 4294967295 1 ⟨by decide, by decide⟩ ⟨by decide, by decide⟩ ⟨by decide, by decide⟩
  have shownText : "a b:2" ++ ":" ++ toString clientUse.place.range.start.toDisplay.1 ++ ":" ++
    toString clientUse.place.range.start.toDisplay.2 = "a b:2:1:9" := by decide
  have rereadText : Location.text ⟨.ofText "a.ml", 3, 1⟩ = "a.ml:3:1" := by decide
  have numberedText : Location.text ⟨.ofText "a:7", 4294967295, 1⟩ = "a:7:4294967295:1" := by decide
  rw [shownText] at read
  rw [rereadText] at reread
  rw [numberedText] at numbered
  exact ⟨l, resolved, read, offset, found, place, symbol, spaced, reread, numbered⟩

end Sample

end CrossRef
