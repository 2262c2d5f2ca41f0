import CrossRef.Proofs.InsertedMarks
import CrossRef.Proofs.SoleDocument

/-! Renaming after a text has been inserted above the only document. Whether a plan is carried out where it was made or
after the edit, it replaces the identifiers that stand for the name and the identity of its symbol. Below the inserted
text these are the same ones as before, and above it there are none. -/

namespace CrossRef
open Check Syntax

/-- The same parts of a text are replaced, wherever the text begins. -/
theorem Rename.ReplacedFrom.moved {start : Nat} {new text result : String} {spans : List Span}
    (replaced : ReplacedFrom start new spans text result) (bytes : Nat) :
    ReplacedFrom (bytes + start) new (spans.map (.moved bytes)) text result := by
  obtain ⟨cuts, rest, rfl, rfl, rfl⟩ := replaced
  refine ⟨cuts, rest, rfl, ?_, rfl⟩
  induction cuts generalizing start with
  | nil => rfl
  | cons cut cuts ih =>
    rw [Cut.spans, Cut.spans, List.map_cons, ih]
    simp [Span.moved, Nat.add_assoc]

namespace Check.Mark.Survives

variable {bytes lines : Nat} {bound : List Binding} {x y : Mark × Option Binding}

theorem token (survives : Mark.Survives bytes lines bound x y) : y.1.token = x.1.token.moved bytes lines := by
  cases survives <;> rfl

theorem standsFor (survives : Mark.Survives bytes lines bound x y) {b : Binding} (inside : b ∈ bound) (id : SymbolId) :
    Mark.standsFor b.symbol.name id y = Mark.standsFor b.symbol.name id x := by
  cases survives with
  | binding c => rfl
  | resolved r kind c => rfl
  | unresolved r kind found other =>
    rw [Bool.eq_iff_iff, standsFor_iff, standsFor_iff]
    constructor
    · rintro ⟨c, stands, named, -⟩
      exact absurd named.symm (other c stands b inside)
    · rintro ⟨c, stands, -⟩
      cases stands

theorem tokens {before after : List (Mark × Option Binding)}
    (survives : List.Forall₂ (Mark.Survives bytes lines bound) before after) {b : Binding} (inside : b ∈ bound)
    (id : SymbolId) :
    (after.filter (Mark.standsFor b.symbol.name id)).map (·.1.token) =
      ((before.filter (Mark.standsFor b.symbol.name id)).map (·.1.token)).map (.moved bytes lines) := by
  have kept : List.Forall₂ (Mark.Survives bytes lines bound) (before.filter (Mark.standsFor b.symbol.name id))
      (after.filter (Mark.standsFor b.symbol.name id)) := by
    refine List.rel_filter ?_ survives
    intro x y same
    simp only [same.standsFor inside]
  symm
  rw [← List.forall₂_eq_eq_eq, List.map_map, List.forall₂_map_left_iff, List.forall₂_map_right_iff]
  exact kept.imp fun x y same => same.token.symm

end Check.Mark.Survives

namespace Check.Insertable

variable {path : Path} {defines : List String} {above below : String} {options changed : Options}
  (fits : Insertable path defines above below) (alone : Environment.foreign options path = [])
  (still : Environment.foreign changed path = []) {b : Binding}
  (bound : b ∈ (Analysis.ofText path below defines).bindings) (id : SymbolId)

include fits alone still bound

theorem standing :
    (Environment.ofOptions changed).standing (Analysis.ofText path (above ++ below) defines) b.symbol.name id =
      ((Environment.ofOptions options).standing (Analysis.ofText path below defines) b.symbol.name id).map
        (.moved above.utf8ByteSize (above.toList.count '\n')) := by
  obtain ⟨front, behind, whole, named, survives⟩ := fits.resolutions alone still
  have nothing : front.filter (Mark.standsFor b.symbol.name id) = [] := by
    rw [List.filter_eq_nil_iff]
    rintro ⟨m, _⟩ member stands
    obtain ⟨c, rfl, same, -⟩ := Mark.standsFor_iff.mp stands
    have resolved := List.mem_append_left behind member
    rw [← whole] at resolved
    exact named _ member b bound (same.symm.trans (Environment.name_of_resolution resolved).2)
  rw [Environment.standing, Environment.standing, whole, List.filter_append, nothing, List.nil_append]
  exact Mark.Survives.tokens survives bound id

/-- Replacing what stands for a symbol of the text comes to the same below an inserted text. -/
theorem replaced {new result other : String}
    (plain : Rename.Replaced new (((Environment.ofOptions options).standing (Analysis.ofText path below defines)
      b.symbol.name id).map (·.span)) below result)
    (inserted : Rename.Replaced new (((Environment.ofOptions changed).standing
      (Analysis.ofText path (above ++ below) defines) b.symbol.name id).map (·.span)) (above ++ below) other) :
    other = above ++ result := by
  have moved := plain.moved above.utf8ByteSize
  rw [fits.standing alone still bound, List.map_map] at inserted
  rw [List.map_map, Nat.add_comm] at moved
  exact inserted.unique moved.append

end Check.Insertable

/-- A text inserted above the only document of a solution. Each binding below it keeps its identity, each reference that
stood for a binding of the document stands for the same one, and a plan made before the edit gives the inserted text
and behind it what it gives without the edit. -/
theorem insertion_commutes_with_rename {s : Solution} (run : Reachable s) {p : Project} (listed : p ∈ s.projects)
    {d : Document} (inside : d ∈ p.documents) (alone : s.documents = [d]) {above : String}
    (fits : Insertable d.path p.configuration.defines above d.text) :
    ∃ edited options changed, s.withText d.id (above ++ d.text) = .ok edited ∧
      s.options? p.id = some options ∧ edited.options? p.id = some changed ∧
      let before := Analysis.ofText d.path d.text p.configuration.defines
      let after := Analysis.ofText d.path (above ++ d.text) p.configuration.defines
      let moved := Token.moved above.utf8ByteSize (above.toList.count '\n')
      (∀ b ∈ before.bindings, ∃ c ∈ after.bindings, c.token = moved b.token ∧ c.symbol.id = b.symbol.id) ∧
      (∀ r b, (.reference r, some b) ∈ (Environment.ofOptions options).resolutions before →
        ∃ q c, (.reference q, some c) ∈ (Environment.ofOptions changed).resolutions after ∧
          q.token = moved r.token ∧ c.token = moved b.token ∧ c.symbol.id = b.symbol.id) ∧
      ∀ lookup span strategy change plan,
        ((Service.plain lookup).plan s d span strategy change).run = .ok (some plan) →
          ∃ t u result, ((Service.plain lookup).apply { plan with strategy := .batched } s false).run = .ok t ∧
            ((Service.plain lookup).apply { plan with strategy := .batched } edited false).run = .ok u ∧
            t.documents.map (·.text) = [result] ∧ u.documents.map (·.text) = [above ++ result] := by
  have only : s.Only p d := ⟨run.wellFormed, listed, inside, alone⟩
  obtain ⟨edited, edit⟩ := only.valid.exists_withText (only.valid.document?_of_mem only.distinct only.member rfl)
    (above ++ d.text)
  have still := only.withText edit
  obtain ⟨options, checked⟩ := Solution.exists_options (only.valid.project?_of_mem listed)
  obtain ⟨changed, rechecked⟩ := Solution.exists_options (still.valid.project?_of_mem still.project)
  have here := only.foreign_eq_nil checked
  have there := still.foreign_eq_nil rechecked
  refine ⟨edited, options, changed, edit, checked, rechecked, ?_, ?_, ?_⟩
  · intro b bound
    have stands := (Environment.ofOptions options).resolution_of_binding (mem_bindings.mp bound)
    obtain ⟨y, inside, survives⟩ := fits.exists_survivor here there stands
    cases survives with
    | binding => exact ⟨_, mem_bindings.mpr (Environment.name_of_resolution inside).1, rfl, rfl⟩
  · intro r b stands
    obtain ⟨y, inside, survives⟩ := fits.exists_survivor here there stands
    cases survives with
    | resolved r kind b => exact ⟨_, _, inside, rfl, rfl, rfl⟩
  · intro lookup span strategy change plan made
    obtain ⟨⟨b, bound, symbol⟩, searched⟩ := only.symbol_of_plan made
    obtain ⟨found, planned⟩ := Service.plan_eq_ok made
    have present := planned.present
    rw [only.valid.owned p listed d inside, checked] at present
    obtain rfl := Option.some.inj present
    have uses : plan.fileUses = (Environment.ofOptions options).uses (p.analysis d) := by
      rw [planned.uses, (Solution.options_of_mem only.valid listed checked).1]
      rfl
    have later : (d.withText (above ++ d.text)).version ≠ plan.version := by
      rw [planned.version]
      exact Nat.succ_ne_self _
    obtain ⟨t, result, applied, texts, replaced⟩ :=
      only.exists_apply checked lookup planned.origin (fun _ => uses) searched
    obtain ⟨u, other, reapplied, retexts, again⟩ :=
      still.exists_apply rechecked lookup planned.origin (fun same => absurd same later) searched
    refine ⟨t, u, result, applied, reapplied, texts, ?_⟩
    rw [← symbol] at replaced again
    rw [← fits.replaced here there bound b.symbol.id replaced again]
    exact retexts

namespace Sample

/-! A document of two declarations, and a line that is inserted above them. -/

def declarations : Document := .ofText ⟨"Core", .ofText "core.ml"⟩ "let a = 1\nlet b = a"

def declaring : Project := .ofDocuments "Core" ⟨[], []⟩ [declarations]

def sole : Solution := ⟨[declaring], .ofProjects [declaring], 0⟩

def preamble : String := "let f = fun x -> x\n"

private theorem sole_reachable : Reachable sole := by
  have success : Solution.build [declaring] = .ok sole := by decide
  exact .built (by decide) success

private theorem preamble_insertable :
    Insertable declarations.path declaring.configuration.defines preamble declarations.text :=
  ⟨by decide, by decide, by decide, by decide +kernel, by decide⟩

private def nameToken : Token := ⟨.word, ⟨4, 1⟩, 0, 4, "a"⟩

private def otherToken : Token := ⟨.word, ⟨14, 1⟩, 1, 4, "b"⟩

private def nameBinding : Binding :=
  ⟨symbolOf declarations.path "" (Tally.empty.count ("", "a")) nameToken .value .everywhere false, nameToken, none⟩

private def otherBinding : Binding :=
  ⟨symbolOf declarations.path "" ((Tally.empty.add ("", "a")).count ("", "b")) otherToken .value .everywhere false,
    otherToken, none⟩

private def nameReference : Reference := ⟨⟨.word, ⟨18, 1⟩, 1, 8, "a"⟩, .use⟩

private theorem declaring_resolutions :
    (Environment.ofOptions (declaring.options [])).resolutions (declaring.analysis declarations) =
      [(.binding nameBinding, some nameBinding), (.binding otherBinding, some otherBinding),
        (.reference nameReference, some nameBinding)] := by
  have marks : (declaring.analysis declarations).marks =
      [.binding nameBinding, .binding otherBinding, .reference nameReference] := rfl
  have found := Environment.resolve?_eq_find? (declaring.options []) declarations.path [otherBinding, nameBinding]
    nameReference
  have nearest : (Environment.candidates (declaring.options []) declarations.path [otherBinding, nameBinding]
      nameReference.offset).find? (·.symbol.name = nameReference.name) = some nameBinding := rfl
  rw [Environment.resolutions, marks]
  exact congrArg (fun found => [(Mark.binding nameBinding, some nameBinding),
    (.binding otherBinding, some otherBinding), (.reference nameReference, found)]) (found.trans nearest)

private theorem exists_plan_for_declaring : ∃ plan,
    ((Service.plain .precise).plan sole declarations ⟨4, 1⟩ .sequential fun _ => "c").run = .ok (some plan) ∧
      plan.new = "c" := by
  have present : sole.options? declarations.id.project = some (declaring.options []) := rfl
  have cut : Span.slice? ⟨4, 1⟩ declarations.text = some "a" := by decide
  have pointed : candidateAt declarations.text (narrow declarations.text ⟨4, 1⟩).start (declaring.options []).defines
      .precise = some ⟨⟨4, 1⟩, false, 0, 4, 5, "let a = 1", ["a"]⟩ := by decide +kernel
  have uses : (Environment.ofOptions (declaring.options [])).uses
      (Analysis.ofText declarations.path declarations.text (declaring.options []).defines) =
        [⟨nameBinding.symbol, ⟨declarations.path, nameToken.range⟩, .definition⟩,
          ⟨otherBinding.symbol, ⟨declarations.path, otherToken.range⟩, .definition⟩,
          ⟨nameBinding.symbol, ⟨declarations.path, nameReference.token.range⟩, .use⟩] := by
    rw [Environment.uses_eq]
    exact congrArg _ declaring_resolutions
  have hit : useAt? [⟨nameBinding.symbol, ⟨declarations.path, nameToken.range⟩, .definition⟩,
      ⟨otherBinding.symbol, ⟨declarations.path, otherToken.range⟩, .definition⟩,
      ⟨nameBinding.symbol, ⟨declarations.path, nameReference.token.range⟩, .use⟩] 0 5 "let a = 1" ["a"] =
        some ⟨nameBinding.symbol, ⟨declarations.path, nameToken.range⟩, .definition⟩ := by
    simp only [useAt?, List.getLast?_singleton, Option.bind_eq_bind, Option.bind_some]
    exact List.find?_cons_of_pos (by decide)
  obtain ⟨resolved, found, use⟩ := Service.resolveAt_of_use present (by decide) (by decide) pointed (uses ▸ hit)
  have symbol : resolved.use.symbol = nameBinding.symbol := by rw [use]
  have seen : nameBinding.symbol.visibility? declarations sole = some (.projects ["Core"] false) := rfl
  exact ⟨_, Service.plan_of_resolved (by decide) cut (by decide) found (symbol ▸ seen) .sequential fun _ => "c", rfl⟩

theorem preamble_above_declarations : ∃ edited changed, ∃ plan : Plan, ∃ t u result,
    sole.withText declarations.id (preamble ++ declarations.text) = .ok edited ∧
      edited.options? declaring.id = some changed ∧
      (∃ q c, (.reference q, some c) ∈ (Environment.ofOptions changed).resolutions
          (Analysis.ofText declarations.path (preamble ++ declarations.text) []) ∧
        q.token = nameReference.token.moved 19 1 ∧ c.symbol.id = nameBinding.symbol.id) ∧
      ((Service.plain .precise).plan sole declarations ⟨4, 1⟩ .sequential fun _ => "c").run = .ok (some plan) ∧
      plan.new = "c" ∧ ((Service.plain .precise).apply { plan with strategy := .batched } sole false).run = .ok t ∧
      ((Service.plain .precise).apply { plan with strategy := .batched } edited false).run = .ok u ∧
      t.documents.map (·.text) = [result] ∧ u.documents.map (·.text) = [preamble ++ result] := by
  obtain ⟨plan, made, new⟩ := exists_plan_for_declaring
  obtain ⟨edited, options, changed, edit, checked, rechecked, -, references, commutes⟩ :=
    insertion_commutes_with_rename sole_reachable (List.mem_singleton.mpr rfl) (List.mem_singleton.mpr rfl) rfl
      preamble_insertable
  obtain rfl : declaring.options [] = options := Option.some.inj checked
  have stands : (.reference nameReference, some nameBinding) ∈
      (Environment.ofOptions (declaring.options [])).resolutions (declaring.analysis declarations) := by
    rw [declaring_resolutions]
    simp
  obtain ⟨q, c, resolved, token, -, id⟩ := references nameReference nameBinding stands
  obtain ⟨t, u, result, applied, reapplied, texts, retexts⟩ :=
    commutes .precise ⟨4, 1⟩ .sequential (fun _ => "c") plan made
  exact ⟨edited, changed, plan, t, u, result, edit, rechecked, ⟨q, c, resolved, token, id⟩, made, new, applied,
    reapplied, texts, retexts⟩

end Sample

end CrossRef
