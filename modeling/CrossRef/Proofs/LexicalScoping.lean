import CrossRef.Proofs.TokenRoles
import Mathlib.Data.List.MinMax
import Mathlib.Data.List.Sort

/-! Names are scoped lexically. A check looks a reference up by offsets, among all bindings of the file whose scopes
reach it, and the ends of the scopes are found apart from the bindings. Whoever goes through the tokens once, and keeps
the names of the module and those of the declaration that is being read, comes to the same bindings. -/

namespace CrossRef.Check
open Syntax

/-- The nearest binding of a reference's name before it, among those of the file that reach it. -/
def Analysis.nearest? (a : Analysis) (r : Reference) : Option Binding :=
  (a.bindings.filter fun b => b.symbol.name = r.name ∧ b.covers r.offset).argmax Binding.offset

def Mark.binding? : Mark → Option Binding
  | .binding b => some b
  | .reference _ => none

def Mark.reference? : Mark → Option Reference
  | .binding _ => none
  | .reference r => some r

/-- What a mark of a file stands for: a binding for itself, a reference for the nearest binding of the file, or else for
one of another file. -/
def Environment.meaning? (env : Environment) (a : Analysis) : Mark → Option Binding
  | .binding b => some b
  | .reference r => a.nearest? r <|> env.siblingBinding? a.path r.name <|> env.referencedBinding? r.name

def Analysis.markAt? (a : Analysis) (t : Token) : Option Mark :=
  a.marks.find? (·.token = t)

/-- The names that can be used at some place, the last ones first: those of the declaration around it, and those of the
module. -/
structure Scopes where
  inner : List Binding
  outer : List Binding

namespace Scopes

def empty : Scopes := ⟨[], []⟩

def enter (s : Scopes) (b : Binding) : Scopes :=
  if b.symbol.isLocal then { s with inner := b :: s.inner } else { s with outer := b :: s.outer }

def find? (s : Scopes) (name : String) : Option Binding :=
  s.inner.find? (·.symbol.name = name) <|> s.outer.find? (·.symbol.name = name)

/-- The names behind a token. A declaration of the module ends those of the one before. -/
def pass (a : Analysis) (s : Scopes) (t : Token) : Scopes :=
  if startsTopLevel t then { s with inner := [] }
  else
    match a.markAt? t with
    | some (.binding b) => s.enter b
    | _ => s

end Scopes

/-- Goes through tokens once, and looks each reference up among the names that can be used there. -/
def interpret (a : Analysis) : Scopes → List Token → List (Reference × Option Binding)
  | _, [] => []
  | s, t :: ts =>
    match a.markAt? t with
    | some (.reference r) => (r, s.find? r.name) :: interpret a (s.pass a t) ts
    | _ => interpret a (s.pass a t) ts

section nearest

private theorem argmax_eq_getLast? {α : Type} {f : α → Nat} {l : List α} (order : l.Pairwise fun x y => f x < f y) :
    l.argmax f = l.getLast? := by
  induction l using List.reverseRecOn with
  | nil => rfl
  | append_singleton l x ih =>
    obtain ⟨inside, -, before⟩ := List.pairwise_append.mp order
    rw [List.argmax_concat, ih inside, List.getLast?_concat]
    cases last : l.getLast? with
    | none => rfl
    | some y =>
      have member := List.mem_of_getLast? last
      exact if_pos (before y member x (List.mem_singleton_self x))

private theorem offsets_increase (path : Path) (text : String) (defines : List String) :
    (Analysis.ofText path text defines).bindings.Pairwise fun b c => b.offset < c.offset := by
  have listed := (map_token_bindings _).trans (map_token_sublist path text defines)
  have order := (starts_increase text defines).sublist listed
  rw [List.pairwise_map] at order
  exact order

/-- Bindings come in the order of the text, so the nearest one is the last of them. -/
theorem nearest?_eq_find? (path : Path) (text : String) (defines : List String) (r : Reference) :
    (Analysis.ofText path text defines).nearest? r = (Analysis.ofText path text defines).bindings.reverse.find?
      fun b => b.symbol.name = r.name ∧ b.covers r.offset := by
  rw [Analysis.nearest?, argmax_eq_getLast? ((offsets_increase path text defines).filter _), List.getLast?_filter]

end nearest

section marks

variable {path : Path} {text : String} {defines : List String} {t : Token}

theorem markAt?_eq_some_iff {m : Mark} :
    (Analysis.ofText path text defines).markAt? t = some m ↔
      m ∈ (Analysis.ofText path text defines).marks ∧ m.token = t := by
  constructor
  · intro found
    exact ⟨List.mem_of_find?_eq_some found, by simpa using List.find?_some found⟩
  · rintro ⟨marked, rfl⟩
    cases found : (Analysis.ofText path text defines).markAt? m.token with
    | none =>
      have missed := List.find?_eq_none.mp found m marked
      simp at missed
    | some n =>
      have same : n.token = m.token := by simpa using List.find?_some found
      rw [List.inj_on_of_nodup_map (nodup_marks path text defines) (List.mem_of_find?_eq_some found) marked same]

private theorem filterMap_find? {marks : List Mark} {tokens : List Token}
    (listed : (marks.map Mark.token).Sublist tokens) (distinct : tokens.Nodup) :
    tokens.filterMap (fun t => marks.find? (·.token = t)) = marks := by
  induction tokens generalizing marks with
  | nil => exact (List.map_eq_nil_iff.mp (List.sublist_nil.mp listed)).symm
  | cons t ts ih =>
    obtain ⟨fresh, tail⟩ := List.nodup_cons.mp distinct
    rcases List.sublist_cons_iff.mp listed with later | ⟨others, here, later⟩
    · have missed : marks.find? (·.token = t) = none := by
        rw [List.find?_eq_none]
        intro m marked same
        exact fresh (later.subset (of_decide_eq_true same ▸ List.mem_map_of_mem marked))
      rw [List.filterMap_cons, missed]
      exact ih later tail
    · obtain ⟨m, rest, rfl, rfl, rfl⟩ := List.map_eq_cons_iff.mp here
      have found : (m :: rest).find? (fun n => n.token = m.token) = some m := List.find?_cons_of_pos (by simp)
      have skipped : ∀ u ∈ ts, (m :: rest).find? (fun n => n.token = u) = rest.find? (fun n => n.token = u) := by
        intro u inside
        refine List.find?_cons_of_neg ?_
        rw [decide_eq_true_eq]
        rintro rfl
        exact fresh inside
      rw [List.filterMap_cons, found, List.filterMap_congr skipped, ih later tail]

private theorem filterMap_markAt? (path : Path) (text : String) (defines : List String) :
    (lex text defines).tokens.filterMap (Analysis.ofText path text defines).markAt? =
      (Analysis.ofText path text defines).marks :=
  filterMap_find? (map_token_sublist path text defines)
    ((nodup_allTokens text).sublist (lex_sublist text defines))

end marks

section declarations

variable {path : Path} {text : String} {defines : List String}

private theorem declaration_of_binding {b : Binding} (bound : b ∈ (Analysis.ofText path text defines).bindings)
    (shared : b.symbol.isLocal = false) : ∃ d : Declaration (code (lex text defines).tokens), d.name = b.token := by
  have binds := binder_of_binding bound
  rw [shared] at binds
  obtain ⟨front, back, whole, role⟩ := split_of_role binds
  have opened := openedBy_stateBehind front (b.token :: back)
  have names := namesTop_of_binder role.symm
  cases mode : (stateBehind ⟨false, .plain⟩ none front (b.token :: back)).mode with
  | plain | parameters | lambda =>
    rw [mode] at names
    cases names
  | header isType isTop access =>
    rw [mode] at names opened
    obtain ⟨before, keyword, modifiers, rfl, word, column, modifies⟩ := opened
    refine ⟨⟨before, keyword, modifiers, b.token, back, ?_, ?_, modifies, ?_⟩, rfl⟩
    · rw [whole, List.append_assoc, List.cons_append]
    · rw [startsTopLevel, column, show isTop = true from names, Bool.true_and, Bool.or_eq_true]
      cases isType
      · exact .inl word
      · exact .inr word
    · exact isIdentifier_of_role binds (by simp)

namespace Declaration

variable (d : Declaration (code (lex text defines).tokens))

theorem starts : (d.before ++ d.keyword :: (d.modifiers ++ d.name :: d.after)).Pairwise
    fun t u => t.span.start < u.span.start := by
  rw [← d.whole]
  exact (starts_increase text defines).filter _

private theorem keyword_mem : d.keyword ∈ (lex text defines).tokens := by
  have member : d.keyword ∈ d.before ++ d.keyword :: (d.modifiers ++ d.name :: d.after) := by simp
  rw [← d.whole] at member
  exact List.mem_of_mem_filter member

private theorem keyword_before_name : d.keyword.span.start < d.name.span.start :=
  (List.pairwise_cons.mp (List.pairwise_append.mp d.starts).2.1).1 d.name (by simp)

private theorem kind_between {t : Token} (member : t ∈ code (lex text defines).tokens)
    (behind : d.keyword.span.start ≤ t.span.start) (before : t.span.start < d.name.span.start) :
    t.kind = .keyword := by
  obtain ⟨-, heading, first⟩ := List.pairwise_append.mp d.starts
  rw [← List.cons_append] at heading
  obtain ⟨last, -⟩ := List.pairwise_cons.mp (List.pairwise_append.mp heading).2.1
  rw [d.whole, ← List.cons_append, List.mem_append, List.mem_append, List.mem_cons (b := d.name)] at member
  rcases member with above | inside | rfl | after
  · have := first t above d.keyword (by simp)
    omega
  · exact d.keywords t inside
  · omega
  · have := last t after
    omega

end Declaration

end declarations

/-- Whether a binding can still be used behind some tokens: it is one of them, and no declaration of the module has
ended it. -/
def Binding.IsOpen (passed : List Token) (b : Binding) : Prop :=
  b.token ∈ passed ∧ (b.symbol.isLocal = true → ∀ n ∈ passed, startsTopLevel n = true → n.span.start ≤ b.offset)

/-- What is kept behind some tokens: the bindings that can still be used, the nearest first. -/
structure Scopes.Holds (a : Analysis) (passed : List Token) (s : Scopes) : Prop where
  mem_iff : ∀ b, b ∈ s.inner ++ s.outer ↔ b ∈ a.bindings ∧ b.IsOpen passed
  inner : ∀ b ∈ s.inner, b.symbol.isLocal = true
  outer : ∀ b ∈ s.outer, b.symbol.isLocal = false
  order : (s.inner ++ s.outer).Pairwise fun b c => c.offset < b.offset

section steps

variable {path : Path} {text : String} {defines : List String} {passed rest : List Token} {t : Token} {s : Scopes}

private theorem isIdentifier_of_startsTopLevel (top : startsTopLevel t = true) : t.isIdentifier = false :=
  isIdentifier_of_keyword (kind_of_startsTopLevel top)

private theorem isOpen_concat (inside : startsTopLevel t = false) {b : Binding} :
    b.IsOpen (passed ++ [t]) ↔ (b.token ∈ passed ∨ b.token = t) ∧
      (b.symbol.isLocal = true → ∀ n ∈ passed, startsTopLevel n = true → n.span.start ≤ b.offset) := by
  simp only [Binding.IsOpen, List.mem_append, List.mem_singleton, or_imp, forall_and, forall_eq, inside,
    Bool.false_eq_true, false_implies, and_true]

private theorem identifier_of_binding {b : Binding} (bound : b ∈ (Analysis.ofText path text defines).bindings) :
    b.token ∈ (lex text defines).tokens ∧ b.token.isIdentifier = true :=
  identifier_of_mark (mem_bindings.mp bound)

private theorem start_lt_of_passed (whole : (lex text defines).tokens = passed ++ t :: rest) {u : Token}
    (before : u ∈ passed) : u.span.start < t.span.start := by
  have order := starts_increase text defines
  rw [whole] at order
  exact (List.pairwise_append.mp order).2.2 u before t (List.mem_cons_self ..)

private theorem passed_cases (whole : (lex text defines).tokens = passed ++ t :: rest) {u : Token}
    (member : u ∈ (lex text defines).tokens) : u ∈ passed ∨ u = t ∨ t.span.start < u.span.start := by
  have order := starts_increase text defines
  rw [whole] at order member
  rcases List.mem_append.mp member with before | later
  · exact .inl before
  · rcases List.mem_cons.mp later with same | behind
    · exact .inr (.inl same)
    · exact .inr (.inr ((List.pairwise_cons.mp (List.pairwise_append.mp order).2.1).1 u behind))

theorem mem_passed_iff (whole : (lex text defines).tokens = passed ++ t :: rest) {u : Token}
    (member : u ∈ (lex text defines).tokens) : u ∈ passed ↔ u.span.start < t.span.start := by
  refine ⟨start_lt_of_passed whole, ?_⟩
  intro before
  rcases passed_cases whole member with inside | rfl | behind
  · exact inside
  · exact absurd before (Nat.lt_irrefl _)
  · exact absurd before (Nat.lt_asymm behind)

/-- At an identifier, what can still be used is what is in scope. -/
theorem isOpen_iff (whole : (lex text defines).tokens = passed ++ t :: rest) (named : t.isIdentifier = true)
    {b : Binding} (bound : b ∈ (Analysis.ofText path text defines).bindings) :
    b.IsOpen passed ↔ b.covers t.span.start = true := by
  rw [covers_iff bound, Binding.IsOpen, Binding.InScope, mem_passed_iff whole (identifier_of_binding bound).1]
  refine and_congr_right fun _ => imp_congr_right fun _ => ?_
  constructor
  · intro ended n member top behind
    rcases passed_cases whole member with before | rfl | later
    · exact absurd behind (Nat.not_lt_of_le (ended n before top))
    · exact absurd named (Bool.eq_false_iff.mp (isIdentifier_of_startsTopLevel top))
    · exact later
  · intro reaches n before top
    by_contra behind
    have later := reaches n (whole ▸ List.mem_append_left _ before) top (Nat.lt_of_not_le behind)
    exact Nat.lt_asymm later (start_lt_of_passed whole before)

namespace Scopes.Holds

theorem empty (a : Analysis) : Scopes.empty.Holds a [] :=
  ⟨by simp [Scopes.empty, Binding.IsOpen], by simp [Scopes.empty], by simp [Scopes.empty], .nil⟩

/-- At the name of a declaration of the module, no other name of it has been passed. -/
theorem inner_eq_nil (holds : s.Holds (Analysis.ofText path text defines) passed)
    (whole : (lex text defines).tokens = passed ++ t :: rest) {b : Binding}
    (bound : b ∈ (Analysis.ofText path text defines).bindings) (token : b.token = t)
    (shared : b.symbol.isLocal = false) : s.inner = [] := by
  obtain ⟨d, name⟩ := declaration_of_binding bound shared
  rw [List.eq_nil_iff_forall_not_mem]
  intro c entered
  obtain ⟨known, before, ended⟩ := (holds.mem_iff c).mp (List.mem_append_left _ entered)
  obtain ⟨listed, named⟩ := identifier_of_binding known
  have above : d.keyword ∈ passed := by
    apply (mem_passed_iff whole d.keyword_mem).mpr
    rw [← token, ← name]
    exact d.keyword_before_name
  have kind : c.token.kind = .keyword := by
    apply d.kind_between (mem_code_of_identifier listed named)
    · exact ended (holds.inner c entered) d.keyword above d.top
    · rw [name, token]
      exact start_lt_of_passed whole before
  exact Bool.false_ne_true ((isIdentifier_of_keyword kind).symm.trans named)

theorem top (holds : s.Holds (Analysis.ofText path text defines) passed)
    (whole : (lex text defines).tokens = passed ++ t :: rest) (starts : startsTopLevel t = true) :
    Scopes.Holds (Analysis.ofText path text defines) (passed ++ [t]) { s with inner := [] } := by
  refine ⟨?_, by simp, holds.outer, (List.pairwise_append.mp holds.order).2.1⟩
  intro b
  constructor
  · intro entered
    obtain ⟨bound, before, -⟩ := (holds.mem_iff b).mp (List.mem_append_right _ entered)
    refine ⟨bound, List.mem_append_left _ before, ?_⟩
    intro inner
    rw [holds.outer b entered] at inner
    cases inner
  · rintro ⟨bound, member, ended⟩
    rcases List.mem_append.mp member with before | last
    · have kept : b ∈ s.inner ++ s.outer :=
        (holds.mem_iff b).mpr ⟨bound, before, fun inner n passed => ended inner n (List.mem_append_left _ passed)⟩
      rcases List.mem_append.mp kept with entered | entered
      · have after := ended (holds.inner b entered) t (by simp) starts
        exact absurd (start_lt_of_passed whole before) (Nat.not_lt_of_le after)
      · exact entered
    · have named := (identifier_of_binding bound).2
      rw [List.mem_singleton.mp last, isIdentifier_of_startsTopLevel starts] at named
      cases named

theorem skip (holds : s.Holds (Analysis.ofText path text defines) passed) (inside : startsTopLevel t = false)
    (free : ∀ b ∈ (Analysis.ofText path text defines).bindings, b.token ≠ t) :
    s.Holds (Analysis.ofText path text defines) (passed ++ [t]) := by
  refine ⟨?_, holds.inner, holds.outer, holds.order⟩
  intro b
  rw [holds.mem_iff, isOpen_concat inside]
  refine and_congr_right fun bound => ?_
  rw [or_iff_left (free b bound), Binding.IsOpen]

theorem enter (holds : s.Holds (Analysis.ofText path text defines) passed)
    (whole : (lex text defines).tokens = passed ++ t :: rest) (inside : startsTopLevel t = false) {b : Binding}
    (bound : b ∈ (Analysis.ofText path text defines).bindings) (token : b.token = t) :
    (s.enter b).Holds (Analysis.ofText path text defines) (passed ++ [t]) := by
  -- A name of the module comes in front of the local ones too, as there are none when it is entered.
  have names : (s.enter b).inner ++ (s.enter b).outer = b :: (s.inner ++ s.outer) := by
    cases reach : b.symbol.isLocal with
    | true => simp [Scopes.enter, reach]
    | false => simp [Scopes.enter, reach, holds.inner_eq_nil whole bound token reach]
  refine ⟨?_, ?_, ?_, ?_⟩
  · intro c
    rw [names, List.mem_cons, holds.mem_iff, isOpen_concat inside]
    constructor
    · rintro (rfl | ⟨known, before, ended⟩)
      · refine ⟨bound, .inr token, ?_⟩
        intro _ n before _
        rw [Binding.offset, token]
        exact Nat.le_of_lt (start_lt_of_passed whole before)
      · exact ⟨known, .inl before, ended⟩
    · rintro ⟨known, before | same, ended⟩
      · exact .inr ⟨known, before, ended⟩
      · exact .inl (binding_at_token known bound (same.trans token.symm))
  · intro c entered
    rw [Scopes.enter] at entered
    split at entered
    · next reach =>
      rcases List.mem_cons.mp entered with rfl | before
      · exact reach
      · exact holds.inner c before
    · exact holds.inner c entered
  · intro c entered
    rw [Scopes.enter] at entered
    split at entered
    · exact holds.outer c entered
    · next reach =>
      rcases List.mem_cons.mp entered with rfl | before
      · exact eq_false_of_ne_true reach
      · exact holds.outer c before
  · rw [names, List.pairwise_cons]
    refine ⟨?_, holds.order⟩
    intro c entered
    obtain ⟨-, before, -⟩ := (holds.mem_iff c).mp entered
    rw [Binding.offset, Binding.offset, token]
    exact start_lt_of_passed whole before

private theorem pass (holds : s.Holds (Analysis.ofText path text defines) passed)
    (whole : (lex text defines).tokens = passed ++ t :: rest) :
    (s.pass (Analysis.ofText path text defines) t).Holds (Analysis.ofText path text defines) (passed ++ [t]) := by
  rw [Scopes.pass]
  split
  · next starts => exact holds.top whole starts
  · next inside =>
    have inside := eq_false_of_ne_true inside
    split
    · next b found =>
      obtain ⟨marked, token⟩ := markAt?_eq_some_iff.mp found
      exact holds.enter whole inside (mem_bindings.mpr marked) token
    · next missed =>
      apply holds.skip inside
      intro b bound token
      exact missed b (markAt?_eq_some_iff.mpr ⟨mem_bindings.mp bound, token⟩)

/-- At a reference, the names that are kept are all bindings of the file that reach it, the last one first. -/
theorem names_eq (holds : s.Holds (Analysis.ofText path text defines) passed)
    (whole : (lex text defines).tokens = passed ++ t :: rest) (named : t.isIdentifier = true) :
    s.inner ++ s.outer = (Analysis.ofText path text defines).bindings.reverse.filter (·.covers t.span.start) := by
  have : Std.Irrefl fun b c : Binding => c.offset < b.offset := ⟨fun b => Nat.lt_irrefl b.offset⟩
  have decreasing : (Analysis.ofText path text defines).bindings.reverse.Pairwise fun b c => c.offset < b.offset :=
    List.pairwise_reverse.mpr (offsets_increase path text defines)
  apply holds.order.eq_of_mem_iff (decreasing.filter _)
  intro b
  rw [holds.mem_iff, List.mem_filter, List.mem_reverse]
  exact and_congr_right (isOpen_iff whole named)

private theorem find?_eq_nearest? (holds : s.Holds (Analysis.ofText path text defines) passed) {r : Reference}
    (whole : (lex text defines).tokens = passed ++ r.token :: rest) (named : r.token.isIdentifier = true) :
    s.find? r.name = (Analysis.ofText path text defines).nearest? r := by
  have names : s.find? r.name = (s.inner ++ s.outer).find? (·.symbol.name = r.name) := by
    rw [List.find?_append]
    exact Option.orElse_eq_or ..
  have kept : s.inner ++ s.outer = (Analysis.ofText path text defines).bindings.reverse.filter (·.covers r.offset) :=
    holds.names_eq whole named
  rw [names, kept, nearest?_eq_find?, List.find?_filter]
  congr 1
  funext b
  simp [and_comm]

end Scopes.Holds

end steps

private theorem interpret_eq {path : Path} {text : String} {defines : List String} {passed rest : List Token}
    {s : Scopes} (holds : s.Holds (Analysis.ofText path text defines) passed)
    (whole : (lex text defines).tokens = passed ++ rest) :
    interpret (Analysis.ofText path text defines) s rest =
      ((rest.filterMap (Analysis.ofText path text defines).markAt?).filterMap Mark.reference?).map
        fun r => (r, (Analysis.ofText path text defines).nearest? r) := by
  -- The names are looked up before the token is passed; what is kept then is known from the tokens before it alone.
  induction rest generalizing passed s with
  | nil => rfl
  | cons t rest ih =>
    have later := ih (holds.pass whole) (by simp [whole])
    rw [interpret]
    cases found : (Analysis.ofText path text defines).markAt? t with
    | none =>
      rw [List.filterMap_cons_none found]
      exact later
    | some m =>
      rw [List.filterMap_cons_some found]
      cases m with
      | binding b => exact later
      | reference r =>
        obtain ⟨marked, rfl⟩ := markAt?_eq_some_iff.mp found
        have named := (identifier_of_mark marked).2
        have stands := holds.find?_eq_nearest? whole named
        change (r, s.find? r.name) :: _ = (r, (Analysis.ofText path text defines).nearest? r) :: _
        rw [stands, later]

section environment

variable {path : Path} {text : String} {defines : List String} {front rest : List Mark}

private theorem bindings_eq_filterMap (a : Analysis) : a.bindings = a.marks.filterMap Mark.binding? := rfl

private theorem references_eq_filterMap (a : Analysis) : a.references = a.marks.filterMap Mark.reference? := rfl

/-- The bindings behind a reference do not reach it. -/
theorem nearest?_eq_find?_front {r : Reference}
    (whole : (Analysis.ofText path text defines).marks = front ++ .reference r :: rest) :
    (Analysis.ofText path text defines).nearest? r =
      (front.filterMap Mark.binding?).reverse.find? fun b => b.symbol.name = r.name ∧ b.covers r.offset := by
  have order := (starts_increase text defines).sublist (map_token_sublist path text defines)
  rw [whole, List.map_append, List.map_cons] at order
  have behind := (List.pairwise_cons.mp (List.pairwise_append.mp order).2.1).1
  have none : (rest.filterMap Mark.binding?).reverse.find?
      (fun b => b.symbol.name = r.name ∧ b.covers r.offset) = none := by
    rw [List.find?_eq_none]
    intro b later reached
    obtain ⟨-, covers⟩ := of_decide_eq_true reached
    obtain ⟨m, member, found⟩ := List.mem_filterMap.mp (List.mem_reverse.mp later)
    cases m <;> cases found
    rw [Binding.covers, Bool.and_eq_true, decide_eq_true_eq] at covers
    exact Nat.lt_asymm covers.2 (behind b.token (List.mem_map_of_mem member))
  rw [nearest?_eq_find?, bindings_eq_filterMap, whole, List.filterMap_append, List.filterMap_cons_none rfl,
    List.reverse_append, List.find?_append, none, Option.none_or]

theorem resolutionsFrom_eq_map (env : Environment) (whole : (Analysis.ofText path text defines).marks = front ++ rest) :
    env.resolutionsFrom path (.ofList (front.filterMap Mark.binding?).reverse) rest =
      rest.map fun m => (m, env.meaning? (Analysis.ofText path text defines) m) := by
  induction rest generalizing front with
  | nil => rfl
  | cons m rest ih =>
    have later := @ih (front ++ [m]) (by simp [whole])
    rw [List.filterMap_append, List.reverse_append] at later
    cases m with
    | binding b =>
      rw [List.map_cons, ← later]
      rfl
    | reference r =>
      rw [List.map_cons, ← later, Environment.meaning?, nearest?_eq_find?_front whole, ← OwnBindings.nearest?_ofList]
      rfl

theorem resolutions_eq_map (env : Environment) (path : Path) (text : String) (defines : List String) :
    env.resolutions (Analysis.ofText path text defines) =
      (Analysis.ofText path text defines).marks.map fun m => (m, env.meaning? (Analysis.ofText path text defines) m) :=
  resolutionsFrom_eq_map env (List.nil_append _).symm

end environment

/-- Whoever goes through the tokens once, with the names of the module and those of the declaration around, comes for
each reference to the binding that a check finds by offsets. -/
theorem resolution_is_lexical (path : Path) (text : String) (defines : List String) :
    interpret (Analysis.ofText path text defines) .empty (lex text defines).tokens =
      (Analysis.ofText path text defines).references.map
        (fun r => (r, (Analysis.ofText path text defines).nearest? r)) ∧
    ∀ env : Environment, env.uses (Analysis.ofText path text defines) =
      (Analysis.ofText path text defines).marks.flatMap fun m =>
        Environment.usesOfMark path (m, env.meaning? (Analysis.ofText path text defines) m) := by
  constructor
  · rw [interpret_eq (.empty _) rfl, filterMap_markAt?, references_eq_filterMap]
  · intro env
    rw [Environment.uses_eq, resolutions_eq_map, List.flatMap_map]
    rfl

-- A parameter hides a name of the module up to the end of its own declaration.
example : let a := Analysis.ofText (.ofText "a.ml") "let x = 1\nlet f x = x\nlet y = x" []
    (interpret a .empty (lex "let x = 1\nlet f x = x\nlet y = x" []).tokens).map
      (fun (r, b) => (r.offset, b.map (·.offset))) = [(20, some 16), (30, some 4)] := by
  decide +kernel

end CrossRef.Check
