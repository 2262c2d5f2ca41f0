import CrossRef.Proofs.AcceptedSpans
import CrossRef.Proofs.TokenPlaces

/-! Renaming in the text that was checked. There the range of an identifier means exactly its span, no part of
which is cut off, and so no range is lost: all of them are accepted, because identifiers never overlap. -/

namespace CrossRef.Syntax

private theorem pastLastDot?_of_no_dot {quoted : Bool} {cs : List Char} (free : '.' ∉ cs) :
    pastLastDot? quoted cs = none := by
  fun_induction pastLastDot? quoted cs with
  | case1 => rfl
  | case2 quoted cs ih => simp_all
  | case3 quoted c cs _ n found ih => simp_all
  | case4 quoted c cs _ found here ih => simp_all
  | case5 => rfl

private theorem pastLastDot?_to_fence {cs : List Char} {n : Nat} (found : charsToFence? cs = some n) :
    pastLastDot? true (cs.take (n + 2)) = none := by
  fun_induction charsToFence? cs generalizing n with
  | case1 cs =>
    cases found
    simp [pastLastDot?]
  | case2 c cs open_ ih =>
    obtain ⟨m, inner, rfl⟩ := Option.map_eq_some_iff.mp found
    have later := ih inner
    rw [List.take_succ_cons, pastLastDot?]
    · simp [later]
    · rintro rest rfl same
      cases cs with
      | nil => cases inner
      | cons second cs =>
        rw [List.take_succ_cons] at same
        obtain ⟨rfl, -⟩ := List.cons.inj same
        exact open_ cs rfl rfl
  | case3 => cases found

/-- Nothing in front of an identifier's own text is a qualifying path. -/
theorem pastLastDot?_identifier {c : Char} {more rest : List Char} {kind : TokenKind}
    (found : lexeme c (more ++ rest) = (kind, more.length)) (named : kind = .word ∨ kind = .quoted) :
    pastLastDot? false (c :: more) = none := by
  rcases named with rfl | rfl
  · obtain ⟨first, inside, -⟩ := lexeme_word found
    apply pastLastDot?_of_no_dot
    intro dot
    rcases List.mem_cons.mp dot with rfl | later
    · cases first
    · cases inside '.' later
  · obtain ⟨rfl, cs, k, fenced, taken⟩ := quoted_text found
    rw [taken, pastLastDot?, Bool.not_false, pastLastDot?_to_fence fenced]
    rfl

end CrossRef.Syntax

namespace CrossRef.Rename
open Syntax

private theorem boundaryBefore_of_isBoundary {text : String} {n : Nat} (cuts : Text.isBoundary text n = true) :
    Text.boundaryBefore text n = n :=
  Nat.le_antisymm (Text.boundaryBefore_le ..) (Text.le_boundaryBefore cuts (Nat.le_refl n))

private theorem boundaryBefore_of_slice? {text shown : String} {span : Span} (cut : span.slice? text = some shown) :
    Text.boundaryBefore text span.start = span.start ∧ Text.boundaryBefore text span.stop = span.stop := by
  obtain ⟨first, last⟩ := Text.isBoundary_of_between? cut
  exact ⟨boundaryBefore_of_isBoundary first, boundaryBefore_of_isBoundary last⟩

theorem narrow_of_slice? {text shown : String} {span : Span} (cut : span.slice? text = some shown) :
    narrow text span = .ofBounds (span.start + (pastLastDot? false shown.toList).getD 0) span.stop := by
  obtain ⟨first, last⟩ := boundaryBefore_of_slice? cut
  have whole : Span.ofBounds span.start span.stop = span := by simp [Span.ofBounds, Span.stop]
  have ordered : min span.start span.stop = span.start := by simp [Span.stop]
  have inside := Text.le_utf8ByteSize_of_isBoundary (Text.isBoundary_of_between? cut).2
  simp only [narrow, Span.stopIn_of_le inside, last, ordered, first, whole, cut, Option.getD_some]

theorem narrow_eq_self {text shown : String} {span : Span} (cut : span.slice? text = some shown)
    (free : pastLastDot? false shown.toList = none) : narrow text span = span := by
  rw [narrow_of_slice? cut, free]
  simp [Span.ofBounds, Span.stop]

theorem slice?_of_mem_allTokens {text : String} {t : Token} (member : t ∈ allTokens text) :
    t.span.slice? text = some t.text := by
  obtain ⟨front, c, more, back, -, whole, shown, span, -, -⟩ := place_of_mem_allTokens member
  rw [span, shown]
  exact slice?_append whole

theorem narrow_of_mem_allTokens {text : String} {t : Token} (member : t ∈ allTokens text)
    (named : t.isIdentifier = true) : narrow text t.span = t.span := by
  obtain ⟨_, c, more, _, rest, -, shown, -, found, -⟩ := place_of_mem_allTokens member
  have free : pastLastDot? false t.text.toList = none := by
    rw [shown, String.toList_ofList]
    exact pastLastDot?_identifier found (by simpa [Token.isIdentifier] using named)
  exact narrow_eq_self (slice?_of_mem_allTokens member) free

/-- A rename finds an identifier again by its range, and passes over those that have another name. -/
theorem target?_of_mem_allTokens {text : String} {t : Token} (member : t ∈ allTokens text)
    (named : t.isIdentifier = true) (name : String) :
    target? (LineIndex.ofText text) text name t.range = if t.name = name then some t.span else none := by
  obtain ⟨_, _, _, _, _, -, -, -, -, range⟩ := place_of_mem_allTokens member
  have cut := slice?_of_mem_allTokens member
  have filled : t.span.isEmpty = false := by
    have := filled_of_mem_allTokens member
    simp only [Span.isEmpty, beq_eq_false_iff_ne]
    omega
  rw [target?, range, Option.bind_some, holder?, narrow_of_mem_allTokens member named, filled, holdsName, cut, Token.name]
  by_cases same : unquote t.text = name <;> simp [same]

private theorem accepted_of_perm {text name : String} {ranges : List Range} {spans : List Span} (apart : Apart spans)
    (same : (ranges.filterMap (target? (LineIndex.ofText text) text name)).Perm spans) :
    accepted text name ranges = spans := by
  apply accepted_of_apart apart
  intro span
  rw [occurs_iff, ← same.mem_iff, List.mem_filterMap]

def Disjoint (spans : List Span) : Prop :=
  spans.Pairwise fun a b => a.stop ≤ b.start ∨ b.stop ≤ a.start

private theorem Disjoint.apart_mergeSort {spans : List Span} (disjoint : Disjoint spans)
    (filled : ∀ span ∈ spans, span.length ≠ 0) : Apart (spans.mergeSort fun a b => (compare a b).isLE) := by
  have either : (spans.mergeSort fun a b => (compare a b).isLE).Pairwise
      fun a b => a.stop ≤ b.start ∨ b.stop ≤ a.start :=
    (List.mergeSort_perm ..).symm.pairwise disjoint Or.symm
  refine (either.and (pairwise_start_mergeSort spans)).imp_of_mem ?_
  rintro a b - second ⟨apart, ordered⟩
  have := filled b (List.mem_mergeSort.mp second)
  simp only [Span.stop] at apart ⊢
  omega

private theorem exists_tokens {p : Token → Prop} {ranges : List Range}
    (standing : ∀ r ∈ ranges, ∃ t, p t ∧ t.range = r) :
    ∃ tokens : List Token, (∀ t ∈ tokens, p t) ∧ tokens.map (·.range) = ranges := by
  induction ranges with
  | nil => exact ⟨[], by simp, rfl⟩
  | cons r rest ih =>
    obtain ⟨tokens, known, same⟩ := ih fun other inside => standing other (List.mem_cons_of_mem _ inside)
    obtain ⟨t, holds, here⟩ := standing r (List.mem_cons_self ..)
    refine ⟨t :: tokens, ?_, by rw [List.map_cons, here, same]⟩
    intro u inside
    rcases List.mem_cons.mp inside with rfl | later
    · exact holds
    · exact known u later

/-- Different ranges that stand at identifiers of one name mean spans apart from each other, and all of these
are accepted. -/
theorem accepts_all {text name : String} {ranges : List Range} (distinct : ranges.Nodup)
    (standing : ∀ r ∈ ranges, ∃ t, (t ∈ allTokens text ∧ t.isIdentifier = true ∧ t.name = name) ∧ t.range = r) :
    ∃ spans, ranges.map (LineIndex.ofText text).spanOf? = spans.map some ∧ Disjoint spans ∧
      (accepted text name ranges).Perm spans := by
  obtain ⟨tokens, known, rfl⟩ := exists_tokens standing
  have found : ∀ t ∈ tokens, target? (LineIndex.ofText text) text name t.range = some t.span := by
    intro t member
    obtain ⟨inside, identifier, named⟩ := known t member
    rw [target?_of_mem_allTokens inside identifier, if_pos named]
  have disjoint : Disjoint (tokens.map (·.span)) := by
    refine List.pairwise_map.mpr ((List.pairwise_map.mp distinct).imp_of_mem ?_)
    intro t u first second different
    refine disjoint_of_ne (known t first).1 (known u second).1 fun same => different ?_
    rw [same]
  have targets : (tokens.map (·.range)).filterMap (target? (LineIndex.ofText text) text name) =
      tokens.map (·.span) := by
    rw [List.filterMap_map, ← List.filterMap_eq_map]
    exact List.filterMap_congr found
  have filled : ∀ span ∈ tokens.map (·.span), span.length ≠ 0 := by
    intro span member
    obtain ⟨t, inside, rfl⟩ := List.mem_map.mp member
    exact (target?_eq_some (found t inside)).1
  refine ⟨tokens.map (·.span), ?_, disjoint, ?_⟩
  · rw [List.map_map, List.map_map]
    refine List.map_congr_left fun t member => ?_
    obtain ⟨_, _, _, _, _, -, -, -, -, range⟩ := place_of_mem_allTokens (known t member).1
    exact range
  · have sorted := (List.mergeSort_perm (tokens.map (·.span)) fun a b => (compare a b).isLE)
    rw [accepted_of_perm (disjoint.apart_mergeSort filled) (targets ▸ sorted.symm)]
    exact sorted

theorem accepted_of_identifiers {text name : String} {ranges : List Range} (distinct : ranges.Nodup)
    (standing : ∀ r ∈ ranges, ∃ t, (t ∈ allTokens text ∧ t.isIdentifier = true) ∧ t.range = r) {tokens : List Token}
    (listed : tokens.Sublist (allTokens text))
    (hits : ∀ t ∈ allTokens text, t ∈ tokens ↔ t.isIdentifier = true ∧ t.range ∈ ranges ∧ t.name = name) :
    accepted text name ranges = tokens.map (·.span) := by
  obtain ⟨picked, known, rfl⟩ := exists_tokens standing
  have targets : (picked.map (·.range)).filterMap (target? (LineIndex.ofText text) text name) =
      (picked.filter (·.name = name)).map (·.span) := by
    rw [List.filterMap_map, ← List.filterMap_eq_filter, List.map_filterMap]
    refine List.filterMap_congr fun t member => ?_
    simp only [Function.comp_def, target?_of_mem_allTokens (known t member).1 (known t member).2]
    by_cases named : t.name = name <;> simp [Option.guard, named]
  refine accepted_of_perm (List.pairwise_map.mpr ((apart_allTokens text).sublist listed)) ?_
  rw [targets]
  refine List.Perm.map _ ((List.perm_ext_iff_of_nodup ?_ ((nodup_allTokens text).sublist listed)).mpr ?_)
  · exact ((List.pairwise_map.mp distinct).imp fun different same => different (congrArg Token.range same)).filter _
  · intro t
    rw [List.mem_filter, decide_eq_true_eq]
    constructor
    · rintro ⟨member, named⟩
      exact (hits t (known t member).1).mpr ⟨(known t member).2, List.mem_map_of_mem member, named⟩
    · intro member
      obtain ⟨-, inside, named⟩ := (hits t (listed.subset member)).mp member
      obtain ⟨u, among, same⟩ := List.mem_map.mp inside
      obtain rfl := eq_of_range (known u among).1 (listed.subset member) same
      exact ⟨among, named⟩

end CrossRef.Rename
