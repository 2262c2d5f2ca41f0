import CrossRef.Proofs.Accessibility
import CrossRef.Proofs.CursorTarget
import CrossRef.Proofs.InsertedMarks

/-! The names that a module declares. A `let` or `type` at the start of a line, the words that may follow it and an
identifier bind one name of the module, and nothing else does up to the next such line. Whatever else is open above is
ended by the line, except for a `fun` that waits for its arrow: it takes the name for one of its parameters. -/

namespace CrossRef.Check
open Syntax

/-- A `let` or `type` at the start of a line, with the name behind it. -/
structure Declaration (tokens : List Token) where
  before : List Token
  keyword : Token
  modifiers : List Token
  name : Token
  after : List Token
  whole : tokens = before ++ keyword :: (modifiers ++ name :: after)
  top : startsTopLevel keyword = true
  modifies : ∀ t ∈ modifiers, isModifier t = true
  named : name.isIdentifier = true

namespace Declaration

variable {tokens : List Token}

def access (d : Declaration tokens) : Access :=
  (d.modifiers.filterMap access?).getLast?.getD .everywhere

def extent (d : Declaration tokens) : List Token :=
  d.keyword :: (d.modifiers ++ d.name :: d.after.takeWhile fun t => !startsTopLevel t)

def state (d : Declaration tokens) : ReaderState :=
  stateBehind ⟨false, .plain⟩ none d.before (d.keyword :: (d.modifiers ++ d.name :: d.after))

/-- Whether a `fun` above the declaration waits for its arrow. -/
def isAwaited (d : Declaration tokens) : Bool :=
  d.state.mode == .lambda

/-- One name of the module is bound from the keyword on to the next declaration: that of the declaration, with the access
that it grants. -/
def BindsName {text : String} {defines : List String} (d : Declaration (code (lex text defines).tokens)) (path : Path) :
    Prop :=
  ∃ b, (Analysis.ofText path text defines).bindings.filter
      (fun b => !b.symbol.isLocal && decide (b.token ∈ d.extent)) = [b] ∧
    b.token = d.name ∧ b.symbol.name = d.name.name ∧ b.symbol.access = d.access

end Declaration

section words

variable {t : Token}

theorem kind_of_startsTopLevel (top : startsTopLevel t = true) : t.kind = .keyword := by
  simp only [startsTopLevel, Bool.and_eq_true, Bool.or_eq_true] at top
  rcases top.2 with word | word <;> exact kind_of_isKeyword word

theorem isPunct_of_kind (other : t.kind ≠ .punct) (sign : String) : t.isPunct sign = false := by
  rw [Token.isPunct, beq_eq_false_iff_ne.mpr other, Bool.false_and]

end words

section steps

variable {state : ReaderState} {previous : Option Token} {t : Token} {rest : List Token}

theorem read_nameless {inAttribute isType isTop : Bool} {access : Access} (plain : isModifier t = false)
    (nameless : t.isIdentifier = false) :
    read ⟨inAttribute, .header isType isTop access⟩ previous t rest = readPlain inAttribute previous t rest := by
  simp only [isModifier, Bool.or_eq_false_iff] at plain
  simp [read, plain, nameless]

private theorem read_of_lambda (waits : state.mode = .lambda) (other : t.kind ≠ .punct) :
    read state previous t rest = (parameterRole previous t rest, state) := by
  simp [read, waits, isPair, isPunct_of_kind other]

private theorem readPlain_not_binder {inAttribute : Bool} {kind : SymbolKind} {access : Access} {isLocal : Bool} :
    (readPlain inAttribute previous t rest).1 ≠ .binder kind access isLocal := by
  unfold readPlain referenceRole
  split_ifs <;> simp

private theorem parameterRole_local {kind : SymbolKind} {access : Access} :
    parameterRole previous t rest ≠ .binder kind access false := by
  unfold parameterRole referenceRole
  split_ifs <;> simp

private theorem top_of_readPlain {inAttribute : Bool}
    (names : (readPlain inAttribute previous t rest).2.mode.namesTop = true) : startsTopLevel t = true := by
  unfold readPlain at names
  split_ifs at names with declares
  · exact Bool.and_eq_true_iff.mpr ⟨names, declares⟩
  all_goals cases names

/-- Only the name behind a `let` or `type` at the start of a line is bound in the module. -/
theorem namesTop_of_binder {kind : SymbolKind} {access : Access}
    (binds : (read state previous t rest).1 = .binder kind access false) : state.mode.namesTop = true := by
  obtain ⟨inAttribute, mode⟩ := state
  cases mode with
  | plain => exact absurd binds readPlain_not_binder
  | header isType isTop granted =>
    by_cases modifier : isModifier t = true
    · rw [read_modifier modifier] at binds
      cases binds
    · by_cases named : t.isIdentifier = true
      · obtain ⟨_, _, role, -⟩ := @read_name previous t rest inAttribute isType isTop granted named
        rw [role] at binds
        cases isTop <;> cases binds
        rfl
      · rw [read_nameless (by simpa using modifier) (by simpa using named)] at binds
        exact absurd binds readPlain_not_binder
  | parameters line =>
    simp only [read] at binds
    split at binds
    · exact absurd binds readPlain_not_binder
    · exact absurd binds parameterRole_local
  | lambda =>
    simp only [read] at binds
    split at binds
    · exact absurd binds readPlain_not_binder
    · exact absurd binds parameterRole_local

private theorem top_of_namesTop (names : (read state previous t rest).2.mode.namesTop = true) :
    startsTopLevel t = true ∨ state.mode.namesTop = true ∧ isModifier t = true := by
  obtain ⟨inAttribute, mode⟩ := state
  cases mode with
  | plain => exact .inl (top_of_readPlain names)
  | header isType isTop granted =>
    by_cases modifier : isModifier t = true
    · rw [read_modifier modifier] at names
      exact .inr ⟨names, modifier⟩
    · by_cases named : t.isIdentifier = true
      · obtain ⟨_, _, next, closed⟩ := @read_name previous t rest inAttribute isType isTop granted named
        rw [next, closed] at names
        cases names
      · rw [read_nameless (by simpa using modifier) (by simpa using named)] at names
        exact .inl (top_of_readPlain names)
  | parameters line =>
    simp only [read] at names
    split at names
    · exact .inl (top_of_readPlain names)
    · cases names
  | lambda =>
    simp only [read] at names
    split at names
    · exact .inl (top_of_readPlain names)
    · cases names

end steps

section runs

variable {modifiers after : List Token} {name : Token}

private theorem binder_of_header (modifies : ∀ t ∈ modifiers, isModifier t = true) (named : name.isIdentifier = true)
    (inAttribute isType isTop : Bool) (access : Access) (previous : Option Token) :
    ∃ kind, (name, .binder kind ((modifiers.filterMap access?).getLast?.getD access) !isTop) ∈
      rolesFrom ⟨inAttribute, .header isType isTop access⟩ previous (modifiers ++ name :: after) := by
  induction modifiers generalizing access previous with
  | nil =>
    obtain ⟨kind, mode, role, -⟩ := @read_name previous name after inAttribute isType isTop access named
    refine ⟨kind, ?_⟩
    rw [List.nil_append, rolesFrom, role]
    exact List.mem_cons_self ..
  | cons t modifiers ih =>
    obtain ⟨kind, later⟩ := ih (fun u inside => modifies u (List.mem_cons_of_mem _ inside)) ((access? t).getD access)
      (some t)
    have last : (((t :: modifiers).filterMap access?).getLast?.getD access) =
        (modifiers.filterMap access?).getLast?.getD ((access? t).getD access) := by
      cases found : access? t with
      | none => simp [found]
      | some granted => simp [found, List.getLast?_cons]
    refine ⟨kind, ?_⟩
    rw [last, List.cons_append, rolesFrom, read_modifier (modifies t (List.mem_cons_self ..))]
    exact List.mem_cons_of_mem _ later

private theorem parameter_of_lambda {words : List Token} (keywords : ∀ t ∈ words, t.kind = .keyword)
    (named : name.isIdentifier = true) {state : ReaderState} (waits : state.mode = .lambda) {previous : Option Token}
    (free : previous.any (·.isPunct ":") = false) :
    (name, .binder .parameter .everywhere true) ∈ rolesFrom state previous (words ++ name :: after) := by
  induction words generalizing state previous with
  | nil =>
    have other : name.kind ≠ .punct := by
      intro sign
      rw [Token.isIdentifier, sign] at named
      cases named
    have role : parameterRole previous name after = .binder .parameter .everywhere true := by
      simp [parameterRole, named, free]
    rw [List.nil_append, rolesFrom, read_of_lambda waits other, role]
    exact List.mem_cons_self ..
  | cons t words ih =>
    have other : t.kind ≠ .punct := by simp [keywords t (List.mem_cons_self ..)]
    rw [List.cons_append, rolesFrom, read_of_lambda waits other]
    apply List.mem_cons_of_mem
    exact ih (fun u inside => keywords u (List.mem_cons_of_mem _ inside)) waits (isPunct_of_kind other ":")

/-- Between a name and the next declaration of the module, nothing is bound in the module. -/
theorem local_of_closed {inside later : List Token} (free : ∀ t ∈ inside, startsTopLevel t = false)
    {state : ReaderState} (closed : state.mode.namesTop = false) {previous : Option Token} {u : Token}
    {kind : SymbolKind} {access : Access} (earlier : u ∉ later) :
    (u, .binder kind access false) ∉ rolesFrom state previous (inside ++ later) := by
  induction inside generalizing state previous with
  | nil =>
    intro member
    apply earlier
    rw [← map_fst_rolesFrom state previous later]
    exact List.mem_map_of_mem member
  | cons t inside ih =>
    rw [List.cons_append, rolesFrom, List.mem_cons, not_or]
    constructor
    · intro here
      have binds := namesTop_of_binder (Prod.mk.inj here).2.symm
      rw [closed] at binds
      cases binds
    · apply ih fun v member => free v (List.mem_cons_of_mem _ member)
      by_contra names
      rcases top_of_namesTop (eq_true_of_ne_false names) with top | ⟨before, -⟩
      · rw [free t (List.mem_cons_self ..)] at top
        cases top
      · rw [closed] at before
        cases before

private theorem eq_name_of_binder {words inside later : List Token} (keywords : ∀ t ∈ words, t.kind = .keyword)
    (named : name.isIdentifier = true) (free : ∀ t ∈ inside, startsTopLevel t = false) {state : ReaderState}
    {previous : Option Token} {u : Token} {kind : SymbolKind} {access : Access} (earlier : u ∉ later)
    (binds : (u, .binder kind access false) ∈ rolesFrom state previous (words ++ name :: (inside ++ later))) :
    u = name := by
  induction words generalizing state previous with
  | nil =>
    rcases List.mem_cons.mp binds with here | behind
    · exact (Prod.mk.inj here).1
    · refine absurd behind (local_of_closed free ?_ earlier)
      by_contra names
      have keyword : name.kind = .keyword := by
        rcases top_of_namesTop (eq_true_of_ne_false names) with top | ⟨-, modifier⟩
        · exact kind_of_startsTopLevel top
        · exact kind_of_isModifier modifier
      rw [isIdentifier_of_keyword keyword] at named
      cases named
  | cons t words ih =>
    rcases List.mem_cons.mp binds with here | behind
    · have other := isIdentifier_of_role binds (by simp)
      rw [(Prod.mk.inj here).1, isIdentifier_of_keyword (keywords t (List.mem_cons_self ..))] at other
      cases other
    · exact ih (fun v member => keywords v (List.mem_cons_of_mem _ member)) behind

/-- The reader is among the parameters of a line only if it was before, or if a token of the line was read. -/
theorem parameters_of_stateBehind {state : ReaderState} {previous : Option Token} {tokens more : List Token}
    {line : Nat} (behind : (stateBehind state previous tokens more).mode = .parameters line) :
    state.mode = .parameters line ∨ ∃ t ∈ tokens, t.line = line := by
  induction tokens generalizing state previous with
  | nil => exact .inl behind
  | cons t tokens ih =>
    rcases ih behind with next | ⟨u, inside, same⟩
    · rcases parameters_of_read next with same | before
      · exact .inr ⟨t, List.mem_cons_self .., same.symm⟩
      · exact .inl before
    · exact .inr ⟨u, List.mem_cons_of_mem _ inside, same⟩

end runs

section marks

variable {path : Path} {text : String} {defines : List String} {t : Token} {kind : SymbolKind} {access : Access}
  {isLocal : Bool}

private theorem binding_of_item {owner : String} {seen : Tally (String × String)} {items : List ScopedToken}
    {scopeEnd : Option Nat} (member : ⟨t, .binder kind access isLocal, scopeEnd⟩ ∈ items) :
    ∃ b, .binding b ∈ marksFrom path owner seen items ∧ b.token = t ∧ b.symbol.access = access ∧
      b.symbol.isLocal = isLocal := by
  induction items generalizing owner seen with
  | nil => cases member
  | cons x rest ih =>
    rcases List.mem_cons.mp member with rfl | later
    · exact ⟨_, List.mem_cons_self .., rfl, rfl, rfl⟩
    · obtain ⟨u, role, stop⟩ := x
      cases role with
      | binder _ _ inner =>
        obtain ⟨b, inside, made⟩ := ih later
        exact ⟨b, List.mem_cons_of_mem _ inside, made⟩
      | reference =>
        obtain ⟨b, inside, made⟩ := ih later
        exact ⟨b, List.mem_cons_of_mem _ inside, made⟩
      | qualifier | other => exact ih later

theorem binding_of_role (member : (t, .binder kind access isLocal) ∈ roles (lex text defines).tokens) :
    ∃ b ∈ (Analysis.ofText path text defines).bindings, b.token = t ∧ b.symbol.access = access ∧
      b.symbol.isLocal = isLocal := by
  rw [← map_withScopes (roles _)] at member
  obtain ⟨⟨_, _, scopeEnd⟩, item, same⟩ := List.mem_map.mp member
  obtain ⟨rfl, rfl⟩ := Prod.mk.inj same
  obtain ⟨b, marked, made⟩ := @binding_of_item path _ _ _ _ "" .empty _ _ item
  exact ⟨b, mem_bindings.mpr marked, made⟩

theorem binder_of_binding {b : Binding} (bound : b ∈ (Analysis.ofText path text defines).bindings) :
    (b.token, .binder b.symbol.kind b.symbol.access b.symbol.isLocal) ∈ roles (lex text defines).tokens := by
  obtain ⟨home, ordinal, kind, access, isLocal, scopeEnd, item, -, -, made⟩ := binding_of_mem (mem_bindings.mp bound)
  have symbol : b.symbol = symbolOf path home ordinal b.token kind access isLocal := by rw [made]
  rw [← map_withScopes (roles _), symbol]
  exact List.mem_map_of_mem item

private theorem role_of_binding {b : Binding} (bound : b ∈ (Analysis.ofText path text defines).bindings) :
    ∃ kind, (b.token, .binder kind b.symbol.access b.symbol.isLocal) ∈ roles (lex text defines).tokens :=
  ⟨_, binder_of_binding bound⟩

private theorem nodup_bindings (path : Path) (text : String) (defines : List String) :
    (Analysis.ofText path text defines).bindings.Nodup := by
  apply (nodup_marks path text defines).of_map.filterMap
  intro first second b one two
  cases first <;> cases one
  cases second <;> cases two
  rfl

theorem binding_at_token {b c : Binding} (first : b ∈ (Analysis.ofText path text defines).bindings)
    (second : c ∈ (Analysis.ofText path text defines).bindings) (same : b.token = c.token) : b = c := by
  have marks := List.inj_on_of_nodup_map (nodup_marks path text defines) (mem_bindings.mp first)
    (mem_bindings.mp second) same
  exact Mark.binding.inj marks

end marks

private theorem line_lt_of_start_lt {text : String} {t u : Token} (first : t ∈ allTokens text)
    (second : u ∈ allTokens text) (column : u.column = 0) (before : t.span.start < u.span.start) : t.line < u.line := by
  obtain ⟨above, _, _, _, _, _, _, pieces, -, -, number, -, span, -⟩ := line_of_mem_allTokens first
  obtain ⟨lines, _, _, _, _, _, _, same, -, -, count, -, place, -⟩ := line_of_mem_allTokens second
  by_contra below
  obtain ⟨between, rfl⟩ : lines <+: above := by
    refine List.prefix_of_prefix_length_le ⟨_, same.symm⟩ ⟨_, pieces.symm⟩ ?_
    omega
  simp only [span, place, column, List.flatMap_append, Text.size_append] at before
  omega

namespace Declaration

variable {path : Path} {text : String} {defines : List String} (d : Declaration (code (lex text defines).tokens))

theorem nodup : (d.before ++ d.keyword :: (d.modifiers ++ d.name :: d.after)).Nodup := by
  rw [← d.whole]
  exact ((nodup_allTokens text).sublist (lex_sublist text defines)).filter _

theorem keywords : ∀ t ∈ d.keyword :: d.modifiers, t.kind = .keyword := by
  intro t member
  rcases List.mem_cons.mp member with rfl | inside
  · exact kind_of_startsTopLevel d.top
  · exact kind_of_isModifier (d.modifies t inside)

private theorem line_lt : ∀ t ∈ d.before, t.line < d.keyword.line := by
  intro t member
  have order := (starts_increase text defines).filter fun t => t.kind != .comment
  rw [show (lex text defines).tokens.filter _ = _ from d.whole] at order
  have before := (List.pairwise_append.mp order).2.2 t member d.keyword (List.mem_cons_self ..)
  have known : ∀ u ∈ d.before ++ d.keyword :: (d.modifiers ++ d.name :: d.after), u ∈ allTokens text := by
    intro u inside
    rw [← d.whole] at inside
    exact (lex_sublist text defines).subset (List.mem_of_mem_filter inside)
  apply line_lt_of_start_lt (known t (List.mem_append_left _ member)) (known d.keyword (by simp)) ?_ before
  have top := d.top
  rw [startsTopLevel, Bool.and_eq_true, beq_iff_eq] at top
  exact top.1

private theorem roles_eq : ∃ front last, roles (lex text defines).tokens =
    front ++ rolesFrom d.state last (d.keyword :: (d.modifiers ++ d.name :: d.after)) ∧ front.map (·.1) = d.before := by
  rw [roles, show (lex text defines).tokens.filter _ = _ from d.whole]
  exact rolesFrom_append ..

private theorem read_keyword (arrived : d.isAwaited = false) (previous : Option Token) (rest : List Token) :
    read d.state previous d.keyword rest =
      (.other, ⟨d.state.inAttribute, .header (d.keyword.isKeyword "type") true .everywhere⟩) := by
  have top := d.top
  rw [startsTopLevel, Bool.and_eq_true] at top
  have later : ∀ line, d.state.mode = .parameters line → d.keyword.line ≠ line := by
    intro line started
    rcases parameters_of_stateBehind started with plain | ⟨t, above, rfl⟩
    · cases plain
    · exact Nat.ne_of_gt (d.line_lt t above)
  rw [read_declaration top.2 (by simpa [isAwaited] using arrived) later, top.1]

/-- Nothing waits if an arrow stands behind each `fun` above. -/
theorem arrived_of_endsLambdas (ends : endsLambdas d.before = true) : d.isAwaited = false := by
  have start : Settles d.keyword.line ⟨false, .plain⟩ d.before := ⟨ends, by simp, by simp, d.line_lt⟩
  have settled := start.stateBehind none (d.keyword :: (d.modifiers ++ d.name :: d.after))
  by_contra awaited
  have waits : d.state.mode = .lambda := by simpa [isAwaited] using awaited
  exact Bool.false_ne_true (settled.waiting waits)

private theorem role_of_name (arrived : d.isAwaited = false) :
    ∃ kind, (d.name, .binder kind d.access false) ∈ roles (lex text defines).tokens := by
  obtain ⟨front, last, whole, -⟩ := d.roles_eq
  obtain ⟨kind, bound⟩ := @binder_of_header _ d.after _ d.modifies d.named d.state.inAttribute
    (d.keyword.isKeyword "type") true .everywhere (some d.keyword)
  refine ⟨kind, ?_⟩
  rw [whole, rolesFrom, d.read_keyword arrived]
  exact List.mem_append_right _ (List.mem_cons_of_mem _ bound)

private theorem role_of_awaited (awaited : d.isAwaited = true) :
    (d.name, .binder .parameter .everywhere true) ∈ roles (lex text defines).tokens := by
  obtain ⟨front, last, whole, -⟩ := d.roles_eq
  have waits : d.state.mode = .lambda := by simpa [isAwaited] using awaited
  have other : d.keyword.kind ≠ .punct := by simp [d.keywords d.keyword (List.mem_cons_self ..)]
  have bound := @parameter_of_lambda d.after _ _ (fun t inside => d.keywords t (List.mem_cons_of_mem _ inside)) d.named
    _ waits (some d.keyword) (isPunct_of_kind other ":")
  rw [whole, rolesFrom, read_of_lambda waits other]
  exact List.mem_append_right _ (List.mem_cons_of_mem _ bound)

theorem extent_append :
    d.extent ++ d.after.dropWhile (fun t => !startsTopLevel t) = d.keyword :: (d.modifiers ++ d.name :: d.after) := by
  simp only [extent, List.cons_append, List.append_assoc, List.takeWhile_append_dropWhile]

private theorem eq_name_of_mem_extent {u : Token} (inside : u ∈ d.extent) {kind : SymbolKind} {access : Access}
    (bound : (u, .binder kind access false) ∈ roles (lex text defines).tokens) : u = d.name := by
  obtain ⟨front, last, whole, above⟩ := d.roles_eq
  obtain ⟨-, below, disjoint⟩ := List.nodup_append'.mp d.nodup
  rw [← d.extent_append] at below disjoint
  have earlier := List.disjoint_of_nodup_append below inside
  have free : ∀ t ∈ d.after.takeWhile (fun t => !startsTopLevel t), startsTopLevel t = false := by
    intro t member
    simpa using List.mem_takeWhile_imp member
  rw [whole, ← d.extent_append] at bound
  rcases List.mem_append.mp bound with outside | behind
  · exact absurd (List.mem_append_left _ inside) (disjoint (above ▸ List.mem_map_of_mem outside))
  · rw [extent, ← List.cons_append, List.append_assoc, List.cons_append] at behind
    exact eq_name_of_binder d.keywords d.named free earlier behind

end Declaration

/-- What a declaration of the module binds: its own name, and no other one, unless a `fun` above it waits for its arrow.
None does if an arrow stands behind each of them. -/
theorem binds_one_name_iff (path : Path) {text : String} {defines : List String}
    (d : Declaration (code (lex text defines).tokens)) :
    (d.BindsName path ↔ d.isAwaited = false) ∧ (endsLambdas d.before = true → d.isAwaited = false) := by
  refine ⟨⟨?_, ?_⟩, d.arrived_of_endsLambdas⟩
  · rintro ⟨b, only, token, -, -⟩
    have member := List.mem_singleton_self b
    rw [← only, List.mem_filter, Bool.and_eq_true, Bool.not_eq_true'] at member
    obtain ⟨bound, outer, -⟩ := member
    obtain ⟨kind, role⟩ := role_of_binding bound
    rw [token, outer] at role
    by_contra awaited
    have same := role_unique role (d.role_of_awaited (eq_true_of_ne_false awaited))
    exact Bool.false_ne_true (Role.binder.inj same).2.2
  · intro arrived
    obtain ⟨kind, role⟩ := d.role_of_name arrived
    obtain ⟨b, bound, token, access, outer⟩ := @binding_of_role path _ _ _ _ _ _ role
    refine ⟨b, ?_, token, token ▸ (symbol_of_binding bound).1, access⟩
    apply List.perm_singleton.mp
    apply (List.perm_ext_iff_of_nodup ((nodup_bindings path text defines).filter _) (List.nodup_singleton b)).mpr
    intro c
    rw [List.mem_filter, List.mem_singleton, Bool.and_eq_true, Bool.not_eq_true', decide_eq_true_eq]
    constructor
    · rintro ⟨known, top, inside⟩
      obtain ⟨_, other⟩ := role_of_binding known
      rw [top] at other
      exact binding_at_token known bound ((d.eq_name_of_mem_extent inside other).trans token.symm)
    · rintro rfl
      refine ⟨bound, outer, ?_⟩
      rw [token, Declaration.extent]
      simp

end CrossRef.Check

namespace CrossRef.Sample
open Check Syntax

def shapeText : String := "let f = fun x -> x\ntype internal // of\n  private Shape = int\nlet y = 1"

def shape : Declaration (code (lex shapeText []).tokens) where
  before := (code (lex "let f = fun x -> x" []).tokens)
  keyword := ⟨.keyword, ⟨19, 4⟩, 1, 0, "type"⟩
  modifiers := [⟨.keyword, ⟨24, 8⟩, 1, 5, "internal"⟩, ⟨.keyword, ⟨41, 7⟩, 2, 2, "private"⟩]
  name := ⟨.word, ⟨49, 5⟩, 2, 10, "Shape"⟩
  after := [⟨.punct, ⟨55, 1⟩, 2, 16, "="⟩, ⟨.word, ⟨57, 3⟩, 2, 18, "int"⟩, ⟨.keyword, ⟨61, 3⟩, 3, 0, "let"⟩,
    ⟨.word, ⟨65, 1⟩, 3, 4, "y"⟩, ⟨.punct, ⟨67, 1⟩, 3, 6, "="⟩, ⟨.number, ⟨69, 1⟩, 3, 8, "1"⟩]
  whole := by decide +kernel
  top := rfl
  modifies := by decide
  named := rfl

theorem shape_private :
    endsLambdas shape.before = true ∧ shape.access = .ownFile ∧ shape.BindsName (.ofText "shape.ml") := by
  have ends : endsLambdas shape.before = true := by decide +kernel
  obtain ⟨binds, arrived⟩ := binds_one_name_iff (.ofText "shape.ml") shape
  exact ⟨ends, by decide, binds.mpr (arrived ends)⟩

def lost : Declaration (code (lex "let f = fun x\nlet g = 1" []).tokens) where
  before := (code (lex "let f = fun x" []).tokens)
  keyword := ⟨.keyword, ⟨14, 3⟩, 1, 0, "let"⟩
  modifiers := []
  name := ⟨.word, ⟨18, 1⟩, 1, 4, "g"⟩
  after := [⟨.punct, ⟨20, 1⟩, 1, 6, "="⟩, ⟨.number, ⟨22, 1⟩, 1, 8, "1"⟩]
  whole := by decide +kernel
  top := rfl
  modifies := by simp
  named := rfl

theorem lost_name_is_parameter : ¬lost.BindsName (.ofText "lost.ml") ∧
    ((Analysis.ofText (.ofText "lost.ml") "let f = fun x\nlet g = 1" []).bindings.filter
        fun b => decide (b.token ∈ lost.extent)).map (fun b => (b.token, b.symbol.kind, b.symbol.isLocal)) =
      [(lost.name, .parameter, true)] := by
  have none : (Analysis.ofText (.ofText "lost.ml") "let f = fun x\nlet g = 1" []).bindings.filter
      (fun b => !b.symbol.isLocal && decide (b.token ∈ lost.extent)) = [] := by decide +kernel
  refine ⟨?_, by decide +kernel⟩
  rintro ⟨b, only, -⟩
  rw [none] at only
  cases only

end CrossRef.Sample
