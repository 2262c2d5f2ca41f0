import CrossRef.Proofs.ResolutionOrder
import CrossRef.Proofs.RespelledMarks

/-! Looking names up after one symbol has got a new name that nothing else has. The bindings that a reference could
stand for come in the same order as before. The new name skips the others and finds the renamed binding, every
other name skips the renamed one, and so each reference stands for what it stood for. -/

namespace CrossRef.Check
open Syntax

/-- Bindings before and after a renaming of one symbol to a name that no other one has. -/
structure Renaming (symbol : Symbol) (new : String) (R : Binding → Binding → Prop) : Prop where
  name : ∀ {b c}, R b c → c.symbol.name = if b.symbol = symbol then new else b.symbol.name
  fresh : ∀ {b c}, R b c → b.symbol.name ≠ new
  access : ∀ {b c}, R b c → c.symbol.access = b.symbol.access
  isLocal : ∀ {b c}, R b c → c.symbol.isLocal = b.symbol.isLocal

structure Analysis.Renamed (R : Binding → Binding → Prop) (file other : Analysis) : Prop where
  path : other.path = file.path
  bindings : List.Forall₂ R file.bindings other.bindings

/-- A mark with what it stands for, before and after a renaming. -/
structure Mark.Renamed (symbol : Symbol) (new : String) (R : Binding → Binding → Prop) (pairs : List (Token × Token))
    (x y : Mark × Option Binding) : Prop where
  mark : x.1.Beside pairs y.1
  name : y.1.token.name = if x.2.any (·.symbol = symbol) then new else x.1.token.name
  found : Option.Rel R x.2 y.2

namespace Environment

def foreign (options : Options) (path : Path) : List Binding :=
  ((siblingExports options).filter fun e => ¬e.path.Same path).map (·.binding) ++
    (referencedExports options).map (·.binding)

theorem candidates_eq (options : Options) (path : Path) (before : List Binding) (offset : Nat) :
    candidates options path before offset = before.filter (·.covers offset) ++ foreign options path :=
  List.append_assoc ..

end Environment

namespace Renaming

variable {symbol : Symbol} {new : String} {R : Binding → Binding → Prop}

/-- The same lookup, made with the new name if it found the renamed symbol. -/
theorem find? (rules : Renaming symbol new R) {before after : List Binding} (same : List.Forall₂ R before after)
    {old asked : String} (other : old ≠ new)
    (name : asked = if (before.find? (·.symbol.name = old)).any (·.symbol = symbol) then new else old) :
    Option.Rel R (before.find? (·.symbol.name = old)) (after.find? (·.symbol.name = asked)) := by
  induction same with
  | nil => exact .none
  | @cons b c before after here rest ih =>
    have named := rules.name here
    by_cases hit : b.symbol.name = old
    · rw [List.find?_cons_of_pos (by simpa using hit)] at name ⊢
      have found : c.symbol.name = asked := by simpa [name, hit] using named
      rw [List.find?_cons_of_pos (by simpa using found)]
      exact .some here
    · rw [List.find?_cons_of_neg (by simpa using hit)] at name ⊢
      have skipped : c.symbol.name ≠ asked := by
        rw [named, name]
        by_cases this : b.symbol = symbol
        · -- What the lookup finds has the old name, so it is not this symbol.
          have unfound : (before.find? (·.symbol.name = old)).any (·.symbol = symbol) = false := by
            by_contra found
            obtain ⟨d, result, equal⟩ := (Option.any_eq_true ..).mp (by simpa using found)
            have standing : d.symbol.name = old := by simpa using List.find?_some result
            have equal : d.symbol = symbol := by simpa using equal
            exact hit (this.trans equal.symm ▸ standing)
          simp [this, unfound, Ne.symm other]
        · rw [if_neg this]
          split
          · exact rules.fresh here
          · exact hit
      rw [List.find?_cons_of_neg (by simpa using skipped)]
      exact ih name

theorem exports (rules : Renaming symbol new R) {file other : Analysis} (same : file.Renamed R other)
    (visible : Access → Bool) : List.Forall₂ R (file.exports visible) (other.exports visible) := by
  refine List.rel_filter ?_ same.bindings
  intro b c related
  simp only [rules.access related, rules.isLocal related]

theorem exportsOf (rules : Renaming symbol new R) {files others : List Analysis}
    (same : List.Forall₂ (Analysis.Renamed R) files others) (visible : Access → Bool) :
    List.Forall₂ (fun e f => f.path = e.path ∧ R e.binding f.binding) (Check.exportsOf visible files)
      (Check.exportsOf visible others) := by
  refine List.rel_flatMap same ?_
  intro file other renamed
  rw [List.forall₂_map_left_iff, List.forall₂_map_right_iff]
  exact (rules.exports renamed visible).imp fun b c related => ⟨renamed.path, related⟩

theorem foreign (rules : Renaming symbol new R) {options changed : Options}
    (own : List.Forall₂ (Analysis.Renamed R) (Environment.analyses options) (Environment.analyses changed))
    (references : List.Forall₂ (Analysis.Renamed R) (options.references.flatMap Environment.analyses)
      (changed.references.flatMap Environment.analyses)) (path : Path) :
    List.Forall₂ R (Environment.foreign options path) (Environment.foreign changed path) := by
  refine List.rel_append ?_ ?_
  · rw [List.forall₂_map_left_iff, List.forall₂_map_right_iff]
    refine (List.rel_filter ?_ (rules.exportsOf own _)).imp fun e f same => same.2
    intro e f same
    simp only [same.1]
  · rw [List.forall₂_map_left_iff, List.forall₂_map_right_iff]
    exact (rules.exportsOf references _).imp fun e f same => same.2

theorem resolutionsFrom (rules : Renaming symbol new R) {chosen : Token → Bool} {pairs : List (Token × Token)}
    (beside : Check.Beside chosen new pairs) {options changed : Options} {path : Path}
    (others : List.Forall₂ R (Environment.foreign options path) (Environment.foreign changed path))
    {marks copies : List Mark}
    (marked : List.Forall₂ (fun m n => m.Beside pairs n ∧ ∀ b c, m = .binding b → n = .binding c → R b c) marks copies)
    {before after : List Binding} (own : List.Forall₂ (fun b c => b.Beside pairs c ∧ R b c) before after)
    (unused : ∀ m ∈ marks, m.token.name ≠ new)
    (names : ∀ x ∈ (Environment.ofOptions options).resolutionsFrom path (.ofList before) marks,
      ∀ u, (x.1.token, u) ∈ pairs → u.name = if x.2.any (·.symbol = symbol) then new else x.1.token.name) :
    List.Forall₂ (Mark.Renamed symbol new R pairs)
      ((Environment.ofOptions options).resolutionsFrom path (.ofList before) marks)
      ((Environment.ofOptions changed).resolutionsFrom path (.ofList after) copies) := by
  induction marked generalizing before after with
  | nil => exact .nil
  | @cons m n marks copies here rest ih =>
    have later := fun m inside => unused m (List.mem_cons_of_mem _ inside)
    obtain ⟨same, related⟩ := here
    cases same with
    | @binding b c same =>
      have first := names _ (List.mem_cons_self ..) _ same.tokens
      have bound := related b c rfl rfl
      refine .cons ⟨.binding same, first, .some bound⟩ ?_
      rw [← OwnBindings.ofList_cons, ← OwnBindings.ofList_cons]
      exact ih (.cons ⟨same, bound⟩ own) later fun x inside => names x (List.mem_cons_of_mem _ inside)
    | @reference r q tokens kind =>
      have first := names _ (List.mem_cons_self ..) _ tokens
      refine .cons ⟨.reference tokens kind, first, ?_⟩ ?_
      · rw [Environment.resolve?_eq_find?, Environment.candidates_eq] at first ⊢
        rw [Environment.resolve?_eq_find?, Environment.candidates_eq]
        refine rules.find? (List.rel_append ?_ others) (unused _ (List.mem_cons_self ..)) first
        refine (List.rel_filter ?_ own).imp fun b c both => both.2
        intro b c both
        exact Bool.eq_iff_iff.mp (beside.covers both.1 tokens).symm
      · exact ih own later fun x inside => names x (List.mem_cons_of_mem _ inside)

end Renaming

end CrossRef.Check
