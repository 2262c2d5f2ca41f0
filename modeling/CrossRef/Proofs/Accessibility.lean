import CrossRef.Proofs.AnchoredUses
import CrossRef.Proofs.SearchScope

/-! What a file gets to see. A use of a symbol is reported only where the symbol may be named: in the file that binds it,
and there in scope; else in a file of the same project, if the binding belongs to the module and is not private; else
in a project that refers to the one that binds it, if it is public. Each of these is looked at only if the ones before
have nothing under the name. -/

namespace CrossRef.Check
open Syntax

/-- A binding is in scope behind it. A local name goes out of scope where a declaration of the module starts. -/
def Binding.InScope (tokens : List Token) (b : Binding) (offset : Nat) : Prop :=
  b.offset < offset ∧ (b.symbol.isLocal = true →
    ∀ t ∈ tokens, startsTopLevel t = true → b.offset < t.span.start → offset < t.span.start)

/-- Another file of the project binds something that is not private to it. -/
def Shared (options : Options) (path : Path) (b : Binding) : Prop :=
  ∃ file ∈ options.files, ¬file.path.Same path ∧
    b ∈ (Analysis.ofText file.path file.text options.defines).bindings ∧
    b.symbol.isLocal = false ∧ b.symbol.access ≠ .ownFile

/-- A file of a project that is referred to directly binds something public. -/
def Published (options : Options) (b : Binding) : Prop :=
  ∃ project ∈ options.references, ∃ file ∈ project.files,
    b ∈ (Analysis.ofText file.path file.text project.defines).bindings ∧
    b.symbol.isLocal = false ∧ b.symbol.access = .everywhere

/-- Why a token of a file may stand for a binding. -/
inductive Grants (options : Options) (path : Path) (text : String) (t : Token) (b : Binding) : Prop
  | own (bound : b ∈ (Analysis.ofText path text options.defines).bindings)
      (scope : b.token = t ∨ b.InScope (lex text options.defines).tokens t.span.start)
  | sibling (free : ∀ c ∈ (Analysis.ofText path text options.defines).bindings, c.symbol.name = t.name →
      ¬c.InScope (lex text options.defines).tokens t.span.start) (shared : Shared options path b)
  | referenced (free : ∀ c ∈ (Analysis.ofText path text options.defines).bindings, c.symbol.name = t.name →
      ¬c.InScope (lex text options.defines).tokens t.span.start)
      (alone : ∀ c, Shared options path c → c.symbol.name ≠ t.name) (published : Published options b)

theorem starts_increase (text : String) (defines : List String) :
    (lex text defines).tokens.Pairwise fun t u => t.span.start < u.span.start := by
  have all : (allTokens text).Pairwise fun t u => t.span.start < u.span.start := by
    refine (apart_allTokens text).imp_of_mem ?_
    intro t u member _ behind
    have filled := filled_of_mem_allTokens member
    simp only [Span.stop] at behind
    omega
  exact all.sublist (lex_sublist text defines)

private theorem scope_of_item {items : List (Token × Role)} {x : ScopedToken} (member : x ∈ withScopes items) :
    ∃ front back, items = front ++ (x.token, x.role) :: back ∧ x.scopeEnd = nextTopLevel? back := by
  induction items with
  | nil => cases member
  | cons first rest ih =>
    obtain ⟨t, role⟩ := first
    rw [withScopes_cons] at member
    rcases List.mem_cons.mp member with rfl | later
    · exact ⟨[], rest, rfl, rfl⟩
    · obtain ⟨front, back, whole, scope⟩ := ih later
      exact ⟨(t, role) :: front, back, by rw [whole]; rfl, scope⟩

private theorem all_nextTopLevel? {items : List (Token × Role)} (offset : Nat)
    (order : (items.map (·.1)).Pairwise fun t u => t.span.start < u.span.start) :
    (nextTopLevel? items).all (offset < ·) = true ↔
      ∀ t ∈ items.map (·.1), startsTopLevel t = true → offset < t.span.start := by
  induction items with
  | nil => simp [nextTopLevel?]
  | cons first rest ih =>
    obtain ⟨behind, order⟩ := List.pairwise_cons.mp order
    rw [nextTopLevel?_cons, List.map_cons, List.forall_mem_cons]
    split
    · next top =>
      simp only [Option.all_some, decide_eq_true_eq, top, forall_const]
      constructor
      · intro before
        exact ⟨before, fun t later _ => Nat.lt_trans before (behind t later)⟩
      · exact And.left
    · next inner => simp [inner, ih order]

private theorem not_comment_of_startsTopLevel {t : Token} (top : startsTopLevel t = true) :
    (t.kind != .comment) = true := by
  simp only [startsTopLevel, Token.isKeyword, Bool.and_eq_true, Bool.or_eq_true, beq_iff_eq] at top
  rcases top.2 with ⟨keyword, -⟩ | ⟨keyword, -⟩ <;> simp [keyword]

private theorem mem_behind {tokens front back : List Token} {t n : Token}
    (order : tokens.Pairwise fun t u => t.span.start < u.span.start)
    (whole : tokens.filter (fun t => t.kind != .comment) = front ++ t :: back) (top : startsTopLevel n = true) :
    n ∈ back ↔ n ∈ tokens ∧ t.span.start < n.span.start := by
  have order : (front ++ t :: back).Pairwise fun t u => t.span.start < u.span.start := whole ▸ order.filter _
  obtain ⟨-, later, before⟩ := List.pairwise_append.mp order
  have behind := (List.pairwise_cons.mp later).1
  have listed : n ∈ front ++ t :: back ↔ n ∈ tokens := by
    rw [← whole, List.mem_filter]
    exact and_iff_left (not_comment_of_startsTopLevel top)
  rw [← listed]
  constructor
  · intro inside
    exact ⟨List.mem_append_right _ (List.mem_cons_of_mem _ inside), behind n inside⟩
  · rintro ⟨inside, after⟩
    rcases List.mem_append.mp inside with earlier | inside
    · exact absurd (before n earlier t (List.mem_cons_self ..)) (Nat.lt_asymm after)
    · rcases List.mem_cons.mp inside with rfl | inside
      · exact absurd after (Nat.lt_irrefl _)
      · exact inside

/-- A file keeps the end of a scope with each binding; it is where the next declaration of the module starts. -/
theorem covers_iff {path : Path} {text : String} {defines : List String} {b : Binding}
    (bound : b ∈ (Analysis.ofText path text defines).bindings) (offset : Nat) :
    b.covers offset = true ↔ b.InScope (lex text defines).tokens offset := by
  obtain ⟨home, ordinal, kind, access, isLocal, scopeEnd, item, -, -, made⟩ := binding_of_mem (mem_bindings.mp bound)
  have shown : b.symbol.isLocal = isLocal := by rw [made]; rfl
  have ends : b.scopeEnd = if isLocal then scopeEnd else none := by rw [made]
  rw [Binding.covers, Bool.and_eq_true, decide_eq_true_eq, and_comm, Binding.InScope, shown, ends]
  refine and_congr_right fun _ => ?_
  cases isLocal with
  | false => simp
  | true =>
    -- Starts increase, so what stands behind the binding in the list is what starts behind it.
    obtain ⟨front, back, whole, scope⟩ := scope_of_item item
    have scope : scopeEnd = nextTopLevel? back := scope
    have tokens : (lex text defines).tokens.filter (fun t => t.kind != .comment) =
        front.map (·.1) ++ b.token :: back.map (·.1) := by
      have listed := congrArg (List.map Prod.fst) whole
      rwa [roles, map_fst_rolesFrom, List.map_append] at listed
    have order : (back.map (·.1)).Pairwise fun t u => t.span.start < u.span.start := by
      have all := (starts_increase text defines).filter fun t => t.kind != .comment
      rw [tokens] at all
      exact (List.pairwise_cons.mp (List.pairwise_append.mp all).2.1).2
    simp only [if_true, scope, all_nextTopLevel? offset order, forall_const]
    constructor
    · intro before t member top behind
      exact before t ((mem_behind (starts_increase text defines) tokens top).mpr ⟨member, behind⟩) top
    · intro before t member top
      obtain ⟨listed, behind⟩ := (mem_behind (starts_increase text defines) tokens top).mp member
      exact before t listed top behind

namespace Environment

/-- A reference stands for the first candidate of its name, behind the bindings that have been met before it. -/
theorem resolutionsFrom_reference {options : Options} {path : Path} {before : List Binding} {marks : List Mark}
    {r : Reference} {found : Option Binding}
    (member : (.reference r, found) ∈ (ofOptions options).resolutionsFrom path (.ofList before) marks) :
    ∃ front back met, marks = front ++ .reference r :: back ∧ (∀ c, c ∈ met ↔ c ∈ before ∨ .binding c ∈ front) ∧
      found = (candidates options path met r.offset).find? (·.symbol.name = r.name) := by
  induction marks generalizing before with
  | nil => cases member
  | cons mark rest ih =>
    cases mark with
    | binding b =>
      rcases List.mem_cons.mp member with here | later
      · cases here
      · rw [← OwnBindings.ofList_cons] at later
        obtain ⟨front, back, met, whole, known, found⟩ := ih later
        refine ⟨.binding b :: front, back, met, by rw [whole]; rfl, ?_, found⟩
        intro c
        rw [known]
        simp only [List.mem_cons, Mark.binding.injEq]
        tauto
    | reference r' =>
      rcases List.mem_cons.mp member with here | later
      · obtain ⟨same, found⟩ := Prod.mk.inj here
        cases same
        exact ⟨[], rest, before, rfl, by simp, by rw [found, resolve?_eq_find?]⟩
      · obtain ⟨front, back, met, whole, known, found⟩ := ih later
        refine ⟨.reference r' :: front, back, met, by rw [whole]; rfl, ?_, found⟩
        intro c
        rw [known]
        simp

private theorem resolution_of_reference {options : Options} {path : Path} {text : String} {defines : List String}
    {r : Reference} {found : Option Binding}
    (member : (.reference r, found) ∈ (ofOptions options).resolutions (Analysis.ofText path text defines)) :
    ∃ met, (∀ c ∈ met, c ∈ (Analysis.ofText path text defines).bindings) ∧
      (∀ c ∈ (Analysis.ofText path text defines).bindings, c.offset < r.offset → c ∈ met) ∧
      found = (candidates options path met r.offset).find? (·.symbol.name = r.name) := by
  have outside : OwnBindings.ofList [] = .empty := rfl
  rw [resolutions, ← outside] at member
  obtain ⟨front, back, met, whole, known, found⟩ := resolutionsFrom_reference member
  refine ⟨met, ?_, ?_, found⟩
  · intro c inside
    rcases (known c).mp inside with none | earlier
    · cases none
    · exact mem_bindings.mpr (whole ▸ List.mem_append_left _ earlier)
  · intro c bound earlier
    have order := (starts_increase text defines).sublist (map_token_sublist path text defines)
    rw [whole, List.map_append, List.map_cons] at order
    have behind := (List.pairwise_cons.mp (List.pairwise_append.mp order).2.1).1
    have marked : .binding c ∈ front ++ .reference r :: back := whole ▸ mem_bindings.mp bound
    rcases List.mem_append.mp marked with inside | later
    · exact (known c).mpr (.inr inside)
    · rcases List.mem_cons.mp later with absurd | later
      · cases absurd
      · exact absurd earlier (Nat.lt_asymm (behind c.token (List.mem_map_of_mem later)))

private theorem mem_exports {a : Analysis} {visible : Access → Bool} {b : Binding} :
    b ∈ a.exports visible ↔ b ∈ a.bindings ∧ b.symbol.isLocal = false ∧ visible b.symbol.access = true := by
  simp [Analysis.exports]

theorem mem_siblings {options : Options} {path : Path} {b : Binding} :
    b ∈ ((siblingExports options).filter fun e => ¬e.path.Same path).map (·.binding) ↔ Shared options path b := by
  simp only [List.mem_map, List.mem_filter, decide_eq_true_eq, siblingExports, mem_exportsOf]
  constructor
  · rintro ⟨e, ⟨⟨file, known, same, inside⟩, other⟩, rfl⟩
    obtain ⟨source, listed, rfl⟩ := List.mem_map.mp known
    obtain ⟨bound, shown, access⟩ := mem_exports.mp inside
    rw [same] at other
    exact ⟨source, listed, other, bound, shown, by simpa using access⟩
  · rintro ⟨source, listed, other, bound, shown, access⟩
    refine ⟨⟨source.path, b⟩, ⟨⟨_, List.mem_map_of_mem listed, rfl, ?_⟩, other⟩, rfl⟩
    exact mem_exports.mpr ⟨bound, shown, by simpa using access⟩

theorem mem_published {options : Options} {b : Binding} :
    b ∈ (referencedExports options).map (·.binding) ↔ Published options b := by
  simp only [List.mem_map, referencedExports, mem_exportsOf]
  constructor
  · rintro ⟨e, ⟨file, known, -, inside⟩, rfl⟩
    obtain ⟨project, refers, known⟩ := List.mem_flatMap.mp known
    obtain ⟨source, listed, rfl⟩ := List.mem_map.mp known
    obtain ⟨bound, shown, access⟩ := mem_exports.mp inside
    exact ⟨project, refers, source, listed, bound, shown, by simpa using access⟩
  · rintro ⟨project, refers, source, listed, bound, shown, access⟩
    have known : Analysis.ofText source.path source.text project.defines ∈ options.references.flatMap analyses :=
      List.mem_flatMap.mpr ⟨project, refers, List.mem_map_of_mem listed⟩
    exact ⟨⟨source.path, b⟩, ⟨_, known, rfl, mem_exports.mpr ⟨bound, shown, by simpa using access⟩⟩, rfl⟩

variable {options : Options} {path : Path} {text : String}

/-- A reference stands only for what it may stand for. The candidates are searched in three parts, and a part is
reached only if nothing of the name is in the parts before. -/
theorem grants_reference {r : Reference} {b : Binding}
    (member : (.reference r, some b) ∈ (ofOptions options).resolutions (Analysis.ofText path text options.defines)) :
    Grants options path text r.token b := by
  obtain ⟨met, bound, complete, found⟩ := resolution_of_reference member
  rw [candidates, List.append_assoc, List.find?_append] at found
  rcases Option.or_eq_some_iff.mp found.symm with own | ⟨none, found⟩
  · obtain ⟨inside, covers⟩ := List.mem_filter.mp (List.mem_of_find?_eq_some own)
    exact .own (bound b inside) (.inr ((covers_iff (bound b inside) r.offset).mp covers))
  have free : ∀ c ∈ (Analysis.ofText path text options.defines).bindings, c.symbol.name = r.token.name →
      ¬c.InScope (lex text options.defines).tokens r.token.span.start := by
    intro c listed named scope
    have inside : c ∈ met.filter (·.covers r.offset) :=
      List.mem_filter.mpr ⟨complete c listed scope.1, (covers_iff listed r.offset).mpr scope⟩
    exact List.find?_eq_none.mp none c inside (decide_eq_true named)
  rw [List.find?_append] at found
  rcases Option.or_eq_some_iff.mp found with shared | ⟨none, published⟩
  · exact .sibling free (mem_siblings.mp (List.mem_of_find?_eq_some shared))
  · refine .referenced free ?_ (mem_published.mp (List.mem_of_find?_eq_some published))
    intro c shared named
    exact List.find?_eq_none.mp none c (mem_siblings.mpr shared) (decide_eq_true named)

private theorem grants_of_resolution {m : Mark} {b : Binding}
    (member : (m, some b) ∈ (ofOptions options).resolutions (Analysis.ofText path text options.defines)) :
    Grants options path text m.token b := by
  cases m with
  | binding c =>
    obtain rfl := Option.some.inj (resolutionsFrom_binding member)
    have marked := (name_of_resolution member).1
    exact .own (mem_bindings.mpr marked) (.inl rfl)
  | reference r => exact grants_reference member

end Environment

namespace Grants

variable {options : Options} {path : Path} {text : String} {t : Token} {b : Binding}

private theorem own_of_local (granted : Grants options path text t b) (inner : b.symbol.isLocal = true) :
    b ∈ (Analysis.ofText path text options.defines).bindings ∧
      (b.token = t ∨ b.InScope (lex text options.defines).tokens t.span.start) := by
  cases granted with
  | own bound scope => exact ⟨bound, scope⟩
  | sibling _ shared =>
    obtain ⟨_, -, -, -, shown, -⟩ := shared
    rw [inner] at shown
    cases shown
  | referenced _ _ published =>
    obtain ⟨_, -, _, -, -, shown, -⟩ := published
    rw [inner] at shown
    cases shown

end Grants

/-- A use stands at an identifier of a file that may name its symbol. If the symbol is local, it is declared in the
file, and no declaration of the module starts between its binding and the use. -/
def Allows (options : Options) (path : Path) (text : String) (u : Use) : Prop :=
  ∃ t ∈ (lex text options.defines).tokens, ∃ b, t.isIdentifier = true ∧ u.place = ⟨path, t.range⟩ ∧
    u.symbol = b.symbol ∧ b.symbol.name = t.name ∧ Grants options path text t b ∧
    (u.symbol.isLocal = true → u.symbol.declaration = some ⟨path, b.token.range⟩ ∧ b.offset ≤ t.span.start ∧
      ∀ n ∈ (lex text options.defines).tokens, startsTopLevel n = true → b.offset < n.span.start →
        t.span.start < n.span.start)

private theorem allows_of_use {options : Options} {path : Path} {text : String} {u : Use}
    (reported : u ∈ (Environment.ofOptions options).uses (Analysis.ofText path text options.defines)) :
    Allows options path text u := by
  obtain ⟨m, b, resolved, symbol, place⟩ := Environment.mem_uses reported
  obtain ⟨marked, named⟩ := Environment.name_of_resolution resolved
  obtain ⟨token, identifier⟩ := identifier_of_mark marked
  have granted := Environment.grants_of_resolution resolved
  refine ⟨m.token, token, b, identifier, place, symbol, named, granted, ?_⟩
  intro inner
  rw [symbol] at inner ⊢
  obtain ⟨bound, here | ⟨behind, inside⟩⟩ := granted.own_of_local inner
  · refine ⟨(symbol_of_binding bound).2.1, Nat.le_of_eq (congrArg (·.span.start) here), ?_⟩
    intro n _ _ later
    rwa [Binding.offset, here] at later
  · exact ⟨(symbol_of_binding bound).2.1, Nat.le_of_lt behind, inside inner⟩

/-- Every check reports only uses that are allowed, be it of the files of a project or of a text in the place of one. -/
theorem checks_enforce_access (options : Options) :
    (∀ u ∈ checkProject options, ∃ file ∈ options.files, Allows options file.path file.text u) ∧
    ∀ path text uses, (checkFile path text options).uses = some uses → ∀ u ∈ uses, Allows options path text u := by
  constructor
  · intro u reported
    obtain ⟨file, known, inside⟩ := List.mem_flatMap.mp reported
    obtain ⟨source, listed, rfl⟩ := List.mem_map.mp known
    exact ⟨source, listed, allows_of_use inside⟩
  · intro path text uses checked u reported
    simp only [checkFile] at checked
    split at checked
    · cases checked
      exact allows_of_use reported
    · cases checked

end CrossRef.Check

namespace CrossRef.Sample
open Check

/-- A name of a library that a client uses, and a parameter. -/
theorem client_and_parameter_allowed :
    (∃ u ∈ checkProject (app.options [lib.options []]), u.symbol = declared.symbol ∧
      Allows (app.options [lib.options []]) client.path client.text u) ∧
    parameterUse.symbol.isLocal = true ∧ Allows (notes.options []) remark.path remark.text parameterUse := by
  have stands : (.reference reference, some declared) ∈
      (Environment.ofOptions (app.options [lib.options []])).resolutions (app.analysis client) := by
    rw [client_resolutions]
    exact List.mem_cons_of_mem _ (List.mem_cons_self ..)
  obtain ⟨u, use, symbol, -⟩ := Environment.exists_reported (List.mem_singleton.mpr rfl) stands
  have reported := (List.mem_filter.mp use).1
  obtain ⟨file, listed, allowed⟩ := (checks_enforce_access (app.options [lib.options []])).1 u reported
  obtain rfl := List.mem_singleton.mp listed
  refine ⟨⟨u, reported, symbol, allowed⟩, rfl, ?_⟩
  exact (checks_enforce_access (notes.options [])).2 remark.path remark.text [parameterUse] rfl parameterUse
    (List.mem_singleton_self _)

end CrossRef.Sample
