import CrossRef.Proofs.NamedPlaces
import CrossRef.Proofs.PlanFrame
import CrossRef.Proofs.RespelledNames

/-! Replacing a name by itself in another spelling. Where the occurrences are written in the new way already, or are
identifiers that can have it, replacing them all together leaves the name of every token, whatever is defined. -/

namespace CrossRef
open Syntax

namespace Syntax

/-- What stands under a span is the new text, or an identifier that can have it. -/
def Exchangeable (text new : String) (span : Span) : Prop :=
  span.slice? text = some new ∨
    ∃ t ∈ plainTokens text, t.span = span ∧ ∃ kind, Spelling kind new ∧ t.Admits text kind new

private theorem Spelling.kind_eq {first second : TokenKind} {new : String} (one : Spelling first new)
    (two : Spelling second new) : first = second := by
  obtain ⟨name, -, -⟩ := one
  obtain ⟨other, -, -⟩ := two
  generalize new.toList = text at name other
  cases name with
  | word valid =>
    cases other with
    | word => rfl
    | quoted => cases valid.1
  | quoted =>
    cases other with
    | word valid => cases valid.1
    | quoted => rfl

end Syntax

namespace Rename

private theorem shapes_of_replaced {text result new : String} {spans : List Span} {kind : TokenKind}
    (spelling : Spelling kind new) (apart : Apart spans)
    (admits : ∀ span ∈ spans, ∃ t ∈ plainTokens text, t.span = span ∧ t.Admits text kind new)
    (replaced : Replaced new spans text result) (defines : List String) :
    (lex result defines).tokens.map Token.shape =
      (lex text defines).tokens.map (respell (fun t => spans.contains t.span) kind new) := by
  have known := (plainTokens_sublist text).subset
  have listed : ((plainTokens text).filter fun t => spans.contains t.span).map (·.span) = spans := by
    refine Apart.eq_of_mem_iff ?_ apart ?_ ?_
    · exact List.pairwise_map.mpr ((apart_allTokens text).sublist (List.filter_sublist.trans (plainTokens_sublist text)))
    · intro span member
      obtain ⟨t, inside, rfl⟩ := List.mem_map.mp member
      have := filled_of_mem_allTokens (known (List.mem_filter.mp inside).1)
      omega
    · intro span
      rw [List.mem_map]
      constructor
      · rintro ⟨t, member, rfl⟩
        simpa using (List.mem_filter.mp member).2
      · intro member
        obtain ⟨t, inside, rfl, -⟩ := admits span member
        exact ⟨t, List.mem_filter.mpr ⟨inside, by simpa using member⟩, rfl⟩
  refine lex_respelled spelling ?_ (by rwa [listed]) defines
  intro t member chosen
  obtain ⟨u, inside, same, fits⟩ := admits t.span (by simpa using chosen)
  obtain rfl := eq_of_span (known inside) (known member) same
  exact fits

private theorem names_batched {text name new : String} {ranges : List Range} (named : unquote new = name)
    (exchangeable : ∀ range ∈ ranges, ∀ found, target? (LineIndex.ofText text) text name range = some found →
      Exchangeable text new found) (defines : List String) :
    (lex (batched text name new ranges) defines).tokens.map (·.name) = (lex text defines).tokens.map (·.name) := by
  -- What is written in the new way already may be left out, and then only identifiers are replaced.
  have replaced : Replaced new ((accepted text name ranges).filter fun span => span.slice? text ≠ some new) text
      (batched text name new ranges) := by
    have all : ReplacedFrom "".utf8ByteSize new (accepted text name ranges) text (batched text name new ranges) :=
      replaced_batched text name new ranges
    refine all.filter ?_
    intro span _ same
    simpa using same
  have other : ∀ span ∈ (accepted text name ranges).filter fun span => span.slice? text ≠ some new,
      ∃ t ∈ plainTokens text, t.span = span ∧ t.name = name ∧ ∃ kind, Spelling kind new ∧ t.Admits text kind new := by
    intro span member
    obtain ⟨taken, differs⟩ := List.mem_filter.mp member
    obtain ⟨range, listed, found⟩ := target_of_accepted _ _ _ taken
    obtain ⟨-, shown, cut, names⟩ := accepted_shows _ _ _ taken
    rcases exchangeable range listed span found with same | ⟨t, inside, rfl, kind, spelling, admits⟩
    · exact absurd same (by simpa using differs)
    · rw [slice?_of_mem_allTokens ((plainTokens_sublist text).subset inside)] at cut
      obtain rfl := Option.some.inj cut
      exact ⟨t, inside, rfl, names, kind, spelling, admits⟩
  have apart : Apart ((accepted text name ranges).filter fun span => span.slice? text ≠ some new) :=
    (apart_accepted text name ranges).filter _
  generalize (accepted text name ranges).filter (fun span => span.slice? text ≠ some new) = spans at replaced other apart
  generalize batched text name new ranges = result at replaced
  cases spans with
  | nil =>
    obtain rfl := replaced.unique (ReplacedFrom.nothing ..)
    rfl
  | cons span spans =>
    obtain ⟨-, -, -, -, kind, spelling, -⟩ := other span (List.mem_cons_self ..)
    have shapes := shapes_of_replaced spelling apart ?_ replaced defines
    · have names := congrArg (List.map fun shape => unquote shape.2.2) shapes
      rw [List.map_map, List.map_map] at names
      refine Eq.trans names (List.map_congr_left fun t member => ?_)
      simp only [Function.comp_apply, respell]
      split
      · rename_i chosen
        obtain ⟨u, inside, same, called, -⟩ := other t.span (by simpa using chosen)
        obtain rfl := eq_of_span ((plainTokens_sublist text).subset inside) ((lex_sublist ..).subset member) same
        exact named.trans called.symm
      · rfl
    · intro span member
      obtain ⟨t, inside, same, -, kind', spelling', admits⟩ := other span member
      exact ⟨t, inside, same, spelling'.kind_eq spelling ▸ admits⟩

theorem replace_self (strategy : Strategy) {text name new : String} {ranges : List Range}
    (alike : ∀ range ∈ ranges, ∀ found, target? (LineIndex.ofText text) text name range = some found →
      found.slice? text = some new) : replace strategy text name new ranges = text := by
  cases strategy with
  | batched =>
    have all : ReplacedFrom "".utf8ByteSize new (accepted text name ranges) text (batched text name new ranges) :=
      replaced_batched text name new ranges
    have none : ReplacedFrom "".utf8ByteSize new [] text (batched text name new ranges) := by
      have kept := all.filter (p := fun _ => false) ?_
      · simpa using kept
      · intro span member _
        obtain ⟨range, listed, found⟩ := target_of_accepted _ _ _ member
        rw [String.empty_append]
        exact alike range listed span found
    exact none.unique (ReplacedFrom.nothing ..)
  | sequential =>
    rw [replace, sequential_eq]
    induction ranges with
    | nil => rfl
    | cons range rest ih =>
      have here : replaceOne name new text range = text := by
        rw [replaceOne_eq]
        cases found : target? (LineIndex.ofText text) text name range with
        | none => rfl
        | some span =>
          obtain ⟨front, back, whole, start, length⟩ :=
            Span.slice?_eq_some_iff.mp (alike range (List.mem_cons_self ..) span found)
          rw [Option.elim_some, whole]
          exact splice_append start length new
      rw [List.foldl_cons, here]
      exact ih fun other later => alike other (List.mem_cons_of_mem _ later)

end Rename

def Document.names (d : Document) (defines : List String) : List String :=
  (lex d.text defines).tokens.map (·.name)

/-- The documents with the names of their tokens, whatever is defined. -/
def Solution.names (s : Solution) : List (DocumentId × (List String → List String)) :=
  s.documents.map fun d => (d.id, d.names)

namespace Plan

/-- What a plan finds in a solution at the occurrences that it has located. -/
def Finds (plan : Plan) (s : Solution) (groups : List DocumentUses) (p : String → Span → Prop) : Prop :=
  ∀ group ∈ groups, ∀ d, s.document? group.document = some d → ∀ u ∈ group.uses, ∀ found,
    Rename.target? (LineIndex.ofText d.text) d.text plan.symbol.name u.place.range = some found → p d.text found

variable {plan : Plan} {s : Solution} {groups : List DocumentUses}

private theorem changeDocument_succeeds (valid : WellFormed s) (group : DocumentUses) :
    ∃ u, plan.changeDocument s group = .ok u := by
  rw [changeDocument_eq]
  cases found : s.document? group.document with
  | none => exact ⟨s, rfl⟩
  | some d =>
    by_cases same : plan.rewritten d.text group = d.text
    · exact ⟨s, if_pos same⟩
    · obtain ⟨u, edit⟩ := valid.exists_withText found (plan.rewritten d.text group)
      exact ⟨u, (if_neg same).trans (congrArg _ edit)⟩

theorem change_succeeds (valid : WellFormed s) (groups : List DocumentUses) : ∃ t, plan.change s groups = .ok t := by
  induction groups generalizing s with
  | nil => exact ⟨s, rfl⟩
  | cons group rest ih =>
    obtain ⟨u, step⟩ := changeDocument_succeeds valid group
    obtain ⟨outline, index, -⟩ := changeDocument_eq_ok valid step
    obtain ⟨t, later⟩ := ih (valid.of_outline outline index)
    exact ⟨t, by rw [change, List.foldlM_cons, step]; exact later⟩

theorem change_self (kept : plan.new = plan.covered)
    (alike : plan.Finds s groups fun text found => found.slice? text = some plan.covered) :
    plan.change s groups = .ok s := by
  induction groups with
  | nil => rfl
  | cons group rest ih =>
    have step : plan.changeDocument s group = .ok s := by
      rw [changeDocument_eq]
      cases found : s.document? group.document with
      | none => rfl
      | some d =>
        apply if_pos
        apply Rename.replace_self
        intro range listed span target
        obtain ⟨u, use, rfl⟩ := List.mem_map.mp listed
        rw [kept]
        exact alike group (List.mem_cons_self ..) d found u use span target
    rw [change, List.foldlM_cons, step]
    exact ih fun other later => alike other (List.mem_cons_of_mem _ later)

private theorem names_rewritten {text : String} {group : DocumentUses} (batched : plan.strategy = .batched)
    (named : unquote plan.new = plan.symbol.name) (exchangeable : ∀ u ∈ group.uses, ∀ found,
      Rename.target? (LineIndex.ofText text) text plan.symbol.name u.place.range = some found →
        Exchangeable text plan.new found) (defines : List String) :
    (lex (plan.rewritten text group) defines).tokens.map (·.name) = (lex text defines).tokens.map (·.name) := by
  rw [rewritten, batched]
  refine Rename.names_batched named ?_ defines
  intro range listed found target
  obtain ⟨u, use, rfl⟩ := List.mem_map.mp listed
  exact exchangeable u use found target

private theorem changeDocument_names {u : Solution} {group : DocumentUses} (valid : WellFormed s)
    (batched : plan.strategy = .batched) (named : unquote plan.new = plan.symbol.name)
    (exchangeable : plan.Finds s [group] fun text found => Exchangeable text plan.new found)
    (step : plan.changeDocument s group = .ok u) :
    u.names = s.names ∧ ∀ id, ¬id.Same group.document → u.document? id = s.document? id := by
  rw [changeDocument_eq] at step
  cases found : s.document? group.document with
  | none =>
    rw [found] at step
    cases step
    exact ⟨rfl, fun _ _ => rfl⟩
  | some d =>
    simp only [found] at step
    split at step
    · cases step
      exact ⟨rfl, fun _ _ => rfl⟩
    · obtain ⟨t, edit⟩ := valid.exists_withText found (plan.rewritten d.text group)
      rw [edit] at step
      cases step
      have after := valid.of_outline (Solution.withText_outline edit) (Solution.withText_index edit)
      -- The document that is changed is the first one with this id, and so the one that was looked up.
      obtain ⟨front, e, back, whole, skipped, hit, changed, -⟩ := valid.withText_documents edit
      have first := found
      rw [valid.document?_eq_find?, whole, List.find?_append, List.find?_eq_none.mpr (by simpa using skipped),
        Option.none_or, List.find?_cons_of_pos (by simpa using hit)] at first
      obtain rfl := Option.some.inj first
      constructor
      · have names : (e.withText (plan.rewritten e.text group)).names = e.names :=
          funext (names_rewritten batched named (exchangeable group (List.mem_singleton_self _) e found))
        simp only [Solution.names, whole, changed, List.map_append, List.map_cons, names]
        rfl
      · intro id other
        have passed : ¬e.id.Same id := fun same => other (same.symm.trans hit)
        have still : ¬(e.withText (plan.rewritten e.text group)).id.Same id := passed
        rw [after.document?_eq_find?, valid.document?_eq_find?, whole, changed, List.find?_append, List.find?_append,
          List.find?_cons_of_neg (by simpa using still), List.find?_cons_of_neg (by simpa using passed)]

/-- A change that exchanges names where they can be exchanged leaves the names of all tokens. -/
theorem names_change {t : Solution} (valid : WellFormed s) (batched : plan.strategy = .batched)
    (named : unquote plan.new = plan.symbol.name) (distinct : groups.Pairwise fun a b => ¬b.document.Same a.document)
    (exchangeable : plan.Finds s groups fun text found => Exchangeable text plan.new found)
    (success : plan.change s groups = .ok t) : t.names = s.names := by
  induction groups generalizing s with
  | nil =>
    cases success
    rfl
  | cons group rest ih =>
    obtain ⟨fresh, distinct⟩ := List.pairwise_cons.mp distinct
    rw [change, List.foldlM_cons] at success
    obtain ⟨u, step, later⟩ := bind_eq_ok success
    obtain ⟨outline, index, -⟩ := changeDocument_eq_ok valid step
    have here : plan.Finds s [group] fun text found => Exchangeable text plan.new found := by
      intro other single
      obtain rfl := List.mem_singleton.mp single
      exact exchangeable other (List.mem_cons_self ..)
    obtain ⟨first, others⟩ := changeDocument_names valid batched named here step
    have finds : plan.Finds u rest fun text found => Exchangeable text plan.new found := by
      intro other inside d found
      rw [others _ (fresh other inside)] at found
      exact exchangeable other (List.mem_cons_of_mem _ inside) d found
    exact (ih (valid.of_outline outline index) distinct finds later).trans first

end Plan

end CrossRef
