import CrossRef.Proofs.AnchoredUses
import CrossRef.Proofs.CursorTokens
import CrossRef.Proofs.LocatedUses

/-! What a cursor stands for. The name at the cursor is found among the tokens, the symbol among the reported uses,
and the two are brought together by line, last column and name. Both views come from the same tokens, so the use
that is found is the one at the token, and there is one whenever the check records the token. -/

namespace CrossRef
open Check Syntax

namespace Check

theorem role_unique {text : String} {defines : List String} {t : Token} {first second : Role}
    (one : (t, first) ∈ roles (lex text defines).tokens) (two : (t, second) ∈ roles (lex text defines).tokens) :
    first = second := by
  have distinct : ((roles (lex text defines).tokens).map Prod.fst).Nodup := by
    rw [roles, map_fst_rolesFrom]
    exact ((nodup_allTokens text).sublist (lex_sublist text defines)).filter _
  exact congrArg Prod.snd (List.inj_on_of_nodup_map distinct one two rfl)

variable {options : Options} {path : Path} {text content : String} {defines : List String} {t : Token}
  {before : List Token} {u : Use}

private theorem resolution_of_useAt? (member : t ∈ (lex text defines).tokens)
    (found : useAt? ((Environment.ofOptions options).uses (Analysis.ofText path text defines)) t.line t.endColumn content
      (island before t) = some u) :
    ∃ m b, m.token = t ∧ (m, some b) ∈ (Environment.ofOptions options).resolutions (Analysis.ofText path text defines) ∧
      u.symbol = b.symbol ∧ u.place = ⟨path, t.range⟩ := by
  simp only [useAt?, getLast?_island, Option.bind_eq_bind, Option.bind_some] at found
  obtain ⟨m, b, resolved, symbol, place⟩ := Environment.mem_uses (List.mem_of_find?_eq_some found)
  have meets := List.find?_some found
  simp only [place, Token.range, Range.onLine, Bool.and_eq_true, beq_iff_eq] at meets
  obtain ⟨⟨⟨line, column⟩, -⟩, -⟩ := meets
  have marked := (identifier_of_mark (Environment.name_of_resolution resolved).1).1
  have same : m.token = t :=
    eq_of_endColumn ((lex_sublist text defines).subset marked) ((lex_sublist text defines).subset member) line column
  exact ⟨m, b, same, resolved, symbol, same ▸ place⟩

private theorem exists_useAt? {m : Mark} {b : Binding} (at_ : m.token = t)
    (resolved : (m, some b) ∈ (Environment.ofOptions options).resolutions (Analysis.ofText path text defines))
    (shown : (Span.ofBounds t.column t.endColumn).slice? content = some t.text) :
    ∃ u, useAt? ((Environment.ofOptions options).uses (Analysis.ofText path text defines)) t.line t.endColumn content
      (island before t) = some u := by
  obtain ⟨u, reported, symbol, place⟩ := Environment.exists_use resolved
  have named : u.symbol.name = t.name := by rw [symbol, (Environment.name_of_resolution resolved).2, at_]
  have place : u.place = ⟨path, t.range⟩ := at_ ▸ place
  simp only [useAt?, getLast?_island, Option.bind_eq_bind, Option.bind_some]
  apply Option.isSome_iff_exists.mp
  refine List.find?_isSome.mpr ⟨u, reported, ?_⟩
  simp [place, named, Token.range, Range.onLine, shown, Token.name, occursIn_unquote]

end Check

def Solution.tokens (s : Solution) (document : Document) : List Token :=
  (s.options? document.id.project).elim [] fun options => (lex document.text options.defines).tokens

/-- What the check of a document records: its marks with what they stand for, if its project lists the file. -/
def Solution.recorded (s : Solution) (document : Document) : List (Mark × Option Binding) :=
  (s.options? document.id.project).elim [] fun options =>
    if options.contains document.path then
      (Environment.ofOptions options).resolutions (Analysis.ofText document.path document.text options.defines)
    else []

def Solution.Selects (s : Solution) (document : Document) (lookup : Lookup) (offset : Nat) (t : Token) : Prop :=
  t ∈ s.tokens document ∧
    ∃ candidate, (Service.plain lookup).candidateAt s document offset = .ok (some candidate) ∧ candidate.span = t.span

namespace Solution

variable {lookup : Lookup} {s : Solution} {document : Document} {offset : Nat}

theorem mem_tokens {t : Token} (member : t ∈ s.tokens document) :
    ∃ options, s.options? document.id.project = some options ∧ t ∈ (lex document.text options.defines).tokens := by
  unfold tokens at member
  cases present : s.options? document.id.project with
  | none =>
    rw [present] at member
    cases member
  | some options =>
    rw [present] at member
    exact ⟨options, rfl, member⟩

theorem mem_allTokens {t : Token} (member : t ∈ s.tokens document) : t ∈ allTokens document.text := by
  obtain ⟨options, -, member⟩ := mem_tokens member
  exact (lex_sublist ..).subset member

theorem mem_recorded {x : Mark × Option Binding} (member : x ∈ s.recorded document) :
    ∃ options, s.options? document.id.project = some options ∧ options.contains document.path = true ∧
      x ∈ (Environment.ofOptions options).resolutions (Analysis.ofText document.path document.text options.defines) := by
  unfold recorded at member
  cases present : s.options? document.id.project with
  | none =>
    rw [present] at member
    cases member
  | some options =>
    rw [present, Option.elim_some] at member
    split at member
    · exact ⟨options, rfl, by assumption, member⟩
    · cases member

theorem candidateAt_plain (boundary : Text.isBoundary document.text offset = true) :
    (Service.plain lookup).candidateAt s document offset =
      .ok ((s.options? document.id.project).bind fun options =>
        Syntax.candidateAt document.text offset options.defines lookup) :=
  if_pos boundary

/-- What a mark stands for at the selected token is what the cursor is resolved to. -/
theorem resolveAt_eq_some {resolved : ResolvedUse} (boundary : Text.isBoundary document.text offset = true)
    (found : ((Service.plain lookup).resolveAt s document offset).run = .ok (some resolved)) :
    ∃ t m b, s.Selects document lookup offset t ∧ t.isIdentifier = true ∧ m.token = t ∧
      (m, some b) ∈ s.recorded document ∧ resolved.use.symbol = b.symbol ∧
      resolved.use.place = ⟨document.path, t.range⟩ ∧ resolved.use.symbol.name = resolved.candidate.name ∧
      (Service.plain lookup).candidateAt s document offset = .ok (some resolved.candidate) := by
  rw [Service.resolveAt_eq boundary] at found
  obtain ⟨options, present, found⟩ := Option.bind_eq_some_iff.mp (Except.ok.inj found)
  obtain ⟨candidate, pointed, found⟩ := Option.bind_eq_some_iff.mp found
  obtain ⟨uses, checked, found⟩ := Option.bind_eq_some_iff.mp found
  obtain ⟨use, hit, rfl⟩ := Option.map_eq_some_iff.mp found
  have listed : options.contains document.path = true := by
    by_contra absent
    rw [checkFile, if_neg absent] at checked
    cases checked
  rw [checkFile, if_pos listed] at checked
  cases checked
  have selected : (Service.plain lookup).candidateAt s document offset = .ok (some candidate) := by
    rw [candidateAt_plain boundary, present, Option.bind_some, pointed]
  obtain ⟨t, member, -, -, -, before, content, rfl, -⟩ := token_of_candidateAt pointed
  obtain ⟨m, b, same, resolved, symbol, place⟩ := resolution_of_useAt? member hit
  obtain ⟨marked, named⟩ := Environment.name_of_resolution resolved
  refine ⟨t, m, b, ⟨?_, _, selected, rfl⟩, same ▸ (identifier_of_mark marked).2, same, ?_, symbol, place, ?_, selected⟩
  · rw [tokens, present]
    exact member
  · rw [recorded, present, Option.elim_some, if_pos listed]
    exact resolved
  · rw [symbol, named, same, Candidate.name, getLast?_island]
    rfl

theorem exists_resolveAt {t : Token} {m : Mark} {b : Binding} (boundary : Text.isBoundary document.text offset = true)
    (selected : s.Selects document lookup offset t) (same : m.token = t) (recorded : (m, some b) ∈ s.recorded document) :
    ∃ resolved, ((Service.plain lookup).resolveAt s document offset).run = .ok (some resolved) := by
  obtain ⟨member, candidate, pointed, span⟩ := selected
  obtain ⟨options, present, listed, resolved⟩ := mem_recorded recorded
  rw [candidateAt_plain boundary, present, Option.bind_some] at pointed
  obtain ⟨u, meant, -, -, -, before, content, rfl, shown⟩ := token_of_candidateAt (Except.ok.inj pointed)
  obtain rfl : u = t := eq_of_span ((lex_sublist ..).subset meant) (mem_allTokens member) span
  obtain ⟨use, hit⟩ := exists_useAt? same resolved shown
  obtain ⟨resolved, found, -⟩ := Service.resolveAt_of_use present listed boundary (Except.ok.inj pointed) hit
  exact ⟨resolved, found⟩

theorem selects_unique {t u : Token} (first : s.Selects document lookup offset t)
    (second : s.Selects document lookup offset u) : t = u := by
  obtain ⟨member, candidate, pointed, span⟩ := first
  obtain ⟨also, other, same, place⟩ := second
  obtain rfl : candidate = other := Option.some.inj (Except.ok.inj (pointed.symm.trans same))
  exact eq_of_span (mem_allTokens member) (mem_allTokens also) (span.symm.trans place)

theorem selects_inside {t u : Token} (boundary : Text.isBoundary document.text offset = true)
    (member : u ∈ s.tokens document) (named : u.isName = true) (inside : u.span.contains offset = true)
    (selected : s.Selects document lookup offset t) : t = u := by
  obtain ⟨also, candidate, pointed, span⟩ := selected
  obtain ⟨options, present, listed⟩ := mem_tokens member
  rw [candidateAt_plain boundary, present, Option.bind_some] at pointed
  have same := span_of_candidateAt listed named inside (Except.ok.inj pointed)
  exact eq_of_span (mem_allTokens also) (mem_allTokens member) (span.symm.trans same)

theorem name_of_recorded {m : Mark} {b : Binding} (recorded : (m, some b) ∈ s.recorded document) :
    b.symbol.name = m.token.name := by
  obtain ⟨options, -, -, resolved⟩ := mem_recorded recorded
  exact (Environment.name_of_resolution resolved).2

private theorem not_qualifier {m : Mark} {b : Binding} (recorded : (m, some b) ∈ s.recorded document) :
    (m.token, .qualifier) ∉ roles (s.tokens document) := by
  obtain ⟨options, present, -, resolved⟩ := mem_recorded recorded
  obtain ⟨role, plays, other⟩ := role_of_mark (Environment.name_of_resolution resolved).1
  rw [tokens, present, Option.elim_some]
  intro qualifies
  exact other (role_unique plays qualifies)

private theorem resolveAt_inside {t : Token} {other : Nat} (member : t ∈ s.tokens document)
    (named : t.isIdentifier = true) (boundary : Text.isBoundary document.text offset = true)
    (also : Text.isBoundary document.text other = true) (first : t.span.contains offset = true)
    (second : t.span.contains other = true) : ((Service.plain lookup).resolveAt s document offset).run =
      ((Service.plain lookup).resolveAt s document other).run := by
  rw [Service.resolveAt_eq boundary, Service.resolveAt_eq also]
  cases present : s.options? document.id.project with
  | none => rfl
  | some options =>
    rw [tokens, present, Option.elim_some] at member
    rw [Option.bind_some, Option.bind_some, candidateAt_inside member (isName_of_isIdentifier named) first second]

end Solution

/-- A cursor is resolved exactly if it means an identifier that the check of the document records, and then to what
the check records there. -/
theorem cursor_exact (lookup : Lookup) (s : Solution) (document : Document) {offset : Nat}
    (boundary : Text.isBoundary document.text offset = true) :
    ∃ outcome, ((Service.plain lookup).resolveAt s document offset).run = .ok outcome ∧
      (outcome.isSome = true ↔ ∃ t m b, s.Selects document lookup offset t ∧ t.isIdentifier = true ∧ m.token = t ∧
        (m, some b) ∈ s.recorded document) ∧
      (∀ resolved, outcome = some resolved →
        ∃ t m b, s.Selects document lookup offset t ∧ m.token = t ∧ (m, some b) ∈ s.recorded document ∧
          resolved.use.symbol = b.symbol ∧ resolved.use.place = ⟨document.path, t.range⟩ ∧
          resolved.use.symbol.name = resolved.candidate.name ∧
          (Service.plain lookup).candidateAt s document offset = .ok (some resolved.candidate)) ∧
      (∀ t, s.Selects document lookup offset t →
        t.kind = .keyword ∨ (t, .qualifier) ∈ roles (s.tokens document) → outcome = none) ∧
      ∀ t ∈ s.tokens document, t.isIdentifier = true → t.span.contains offset = true →
        ∀ other, Text.isBoundary document.text other = true → t.span.contains other = true →
          ((Service.plain lookup).resolveAt s document other).run = .ok outcome := by
  obtain ⟨outcome, answer⟩ : ∃ outcome, ((Service.plain lookup).resolveAt s document offset).run = .ok outcome :=
    ⟨_, Service.resolveAt_eq boundary⟩
  have found : ∀ resolved, outcome = some resolved → _ := fun resolved same =>
    Solution.resolveAt_eq_some boundary (answer.trans (congrArg _ same))
  refine ⟨outcome, answer, ⟨?_, ?_⟩, ?_, ?_, ?_⟩
  · intro some_use
    obtain ⟨resolved, same⟩ := Option.isSome_iff_exists.mp some_use
    obtain ⟨t, m, b, selected, named, token, recorded, -⟩ := found resolved same
    exact ⟨t, m, b, selected, named, token, recorded⟩
  · intro ⟨t, m, b, selected, _, token, recorded⟩
    obtain ⟨resolved, same⟩ := Solution.exists_resolveAt boundary selected token recorded
    rw [answer] at same
    rw [Except.ok.inj same]
    rfl
  · intro resolved same
    obtain ⟨t, m, b, selected, -, token, recorded, rest⟩ := found resolved same
    exact ⟨t, m, b, selected, token, recorded, rest⟩
  · intro t selected unnamed
    cases same : outcome with
    | none => rfl
    | some resolved =>
      obtain ⟨u, m, b, also, named, token, recorded, -⟩ := found resolved same
      obtain rfl := Solution.selects_unique selected also
      rcases unnamed with keyword | qualifier
      · simp [Token.isIdentifier, keyword] at named
      · exact absurd (token ▸ qualifier) (Solution.not_qualifier recorded)
  · intro t member named first other also second
    rw [← answer]
    exact Solution.resolveAt_inside member named also boundary second first

namespace Sample

/-! A name that is qualified by another one. -/

def qualified : Document := .ofText ⟨"Core", .ofText "core.ml"⟩ "let a = M.a"

def core : Project := .ofDocuments "Core" ⟨[], []⟩ [qualified]

def single : Solution := ⟨[core], .ofProjects [core], 0⟩

private def bound : Binding :=
  ⟨symbolOf qualified.path "" (Tally.empty.count ("", "a")) token .value .everywhere false, token, none⟩

private def last : Token := ⟨.word, ⟨10, 1⟩, 0, 10, "a"⟩

private theorem last_recorded : (.reference ⟨last, .use⟩, some bound) ∈ single.recorded qualified := by
  have marks : (core.analysis qualified).marks = [.binding bound, .reference ⟨last, .use⟩] := rfl
  have found := Environment.resolve?_eq_find? (core.options []) qualified.path [bound] ⟨last, .use⟩
  have first : (Environment.candidates (core.options []) qualified.path [bound] 10).find?
      (·.symbol.name = Reference.name ⟨last, .use⟩) = some bound := rfl
  change (Environment.ofOptions (core.options [])).resolve? _ _ _ = (Environment.candidates _ _ _ 10).find? _ at found
  rw [first] at found
  have present : single.options? qualified.id.project = some (core.options []) := rfl
  rw [Solution.recorded, present, Option.elim_some, if_pos (by decide)]
  change _ ∈ (Environment.ofOptions (core.options [])).resolutions (core.analysis qualified)
  rw [Environment.resolutions, marks, ← found]
  exact List.mem_cons_of_mem _ (List.mem_cons_self ..)

theorem cursor_behind_names :
    (∃ resolved, ((Service.plain .greedy).resolveAt single qualified 11).run = .ok (some resolved) ∧
      resolved.use.place = ⟨qualified.path, .onLine 0 10 11⟩ ∧ resolved.use.symbol.name = "a") ∧
    ((Service.plain .greedy).resolveAt single qualified 9).run = .ok none := by
  have pointed : (Service.plain .greedy).candidateAt single qualified 11 =
      .ok (some ⟨⟨10, 1⟩, false, 0, 10, 11, "let a = M.a", ["M", "a"]⟩) := by decide
  have selected : single.Selects qualified .greedy 11 last := ⟨by decide, _, pointed, rfl⟩
  have qualifier : single.Selects qualified .greedy 9 ⟨.word, ⟨8, 1⟩, 0, 8, "M"⟩ :=
    ⟨by decide, ⟨⟨8, 1⟩, false, 0, 8, 9, "let a = M.a", ["M"]⟩, by decide, rfl⟩
  have atEnd : Text.isBoundary qualified.text 11 = true := by decide
  have atPoint : Text.isBoundary qualified.text 9 = true := by decide
  constructor
  · obtain ⟨outcome, answer, exactly, shows, -⟩ := cursor_exact .greedy single qualified atEnd
    obtain ⟨resolved, same⟩ := Option.isSome_iff_exists.mp
      (exactly.mpr ⟨last, _, bound, selected, by decide, rfl, last_recorded⟩)
    obtain ⟨t, -, -, also, -, -, -, place, named, meant⟩ := shows resolved same
    obtain rfl := Solution.selects_unique selected also
    rw [← Option.some.inj (Except.ok.inj (pointed.symm.trans meant))] at named
    exact ⟨resolved, answer.trans (congrArg _ same), place, named⟩
  · obtain ⟨outcome, answer, -, -, silent, -⟩ := cursor_exact .greedy single qualified atPoint
    rw [answer, silent _ qualifier (.inr (by decide))]

end Sample

end CrossRef
