import CrossRef.Proofs.InsertedRoles
import CrossRef.Proofs.RenamedResolution

/-! The marks of a text below another one, and what they stand for. A binding is told from others by the name of its
owner, its own name and how many of that name the owner has before it. None of this changes below a text in which
the names that are bound here do not occur, and so no reference is caught by a binding of that text either. -/

namespace CrossRef

def Range.moved (lines : Nat) (r : Range) : Range :=
  ⟨⟨lines + r.start.line, r.start.column⟩, ⟨lines + r.stop.line, r.stop.column⟩⟩

def Symbol.moved (lines : Nat) (s : Symbol) : Symbol :=
  { s with declaration := s.declaration.map fun place => { place with range := place.range.moved lines } }

namespace Check
open Syntax

def Binding.moved (bytes lines : Nat) (b : Binding) : Binding :=
  ⟨b.symbol.moved lines, b.token.moved bytes lines, b.scopeEnd.map (bytes + ·)⟩

private theorem Binding.covers_moved (bytes lines : Nat) (b : Binding) (offset : Nat) :
    (b.moved bytes lines).covers (bytes + offset) = b.covers offset := by
  have inside : (b.moved bytes lines).scopeEnd.all (bytes + offset < ·) = b.scopeEnd.all (offset < ·) := by
    cases ends : b.scopeEnd <;> simp [moved, ends]
  have behind : ((b.moved bytes lines).offset < bytes + offset) = (b.offset < offset) := by
    simp [Binding.offset, moved, Token.moved, Span.moved]
  simp only [covers, inside, behind]

/-- A mark, and the one at the same token below a text. What a reference is used for may differ. -/
inductive Mark.Follows (bytes lines : Nat) : Mark → Mark → Prop where
  | binding (b : Binding) : Mark.Follows bytes lines (.binding b) (.binding (b.moved bytes lines))
  | reference (r : Reference) (kind : Occurrence) :
      Mark.Follows bytes lines (.reference r) (.reference ⟨r.token.moved bytes lines, kind⟩)

structure ScopedToken.Follows (bytes lines : Nat) (x y : ScopedToken) : Prop where
  token : y.token = x.token.moved bytes lines
  role : x.role.Alike y.role
  scopeEnd : y.scopeEnd = x.scopeEnd.map (bytes + ·)

section scopes

variable {bytes lines : Nat} {before after : List (Token × Role)}

private theorem nextTopLevel?_follows (roles : List.Forall₂ (RoleFollows bytes lines) before after) :
    nextTopLevel? after = (nextTopLevel? before).map (bytes + ·) := by
  induction roles with
  | nil => rfl
  | @cons a b before after here _ ih =>
    rw [nextTopLevel?_cons, nextTopLevel?_cons, here.token, ih]
    by_cases top : startsTopLevel a.1 = true
    · have below : startsTopLevel (a.1.moved bytes lines) = true := top
      rw [if_pos top, if_pos below]
      rfl
    · have below : ¬startsTopLevel (a.1.moved bytes lines) = true := top
      rw [if_neg top, if_neg below]

private theorem withScopes_follows (roles : List.Forall₂ (RoleFollows bytes lines) before after) :
    List.Forall₂ (ScopedToken.Follows bytes lines) (withScopes before) (withScopes after) := by
  induction roles with
  | nil => exact .nil
  | @cons a b before after here rest ih =>
    rw [withScopes_cons, withScopes_cons]
    exact .cons ⟨here.token, here.role, nextTopLevel?_follows rest⟩ ih

theorem withScopes_append (front rest : List (Token × Role)) :
    ∃ items, withScopes (front ++ rest) = items ++ withScopes rest ∧
      items.map (fun x => (x.token, x.role)) = front := by
  induction front with
  | nil => exact ⟨[], rfl, rfl⟩
  | cons a front ih =>
    obtain ⟨items, whole, same⟩ := ih
    refine ⟨⟨a.1, a.2, nextTopLevel? (front ++ rest)⟩ :: items, ?_, ?_⟩
    · rw [List.cons_append, withScopes_cons, whole, List.cons_append]
    · rw [List.map_cons, same]

end scopes

/-- Reading on behind some tokens: the names that they do not bind count as before. -/
theorem marksFrom_append (path : Path) (owner : String) (seen : Tally (String × String))
    (items rest : List ScopedToken) :
    ∃ keeper counted, marksFrom path owner seen (items ++ rest) =
        marksFrom path owner seen items ++ marksFrom path keeper counted rest ∧
      ∀ home name, (∀ x ∈ items, x.role ≠ .other → x.token.name ≠ name) →
        counted.count (home, name) = seen.count (home, name) := by
  induction items generalizing owner seen with
  | nil => exact ⟨owner, seen, rfl, fun home name _ => rfl⟩
  | cons x items ih =>
    obtain ⟨t, role, scopeEnd⟩ := x
    cases role with
    | binder kind access isLocal =>
      obtain ⟨keeper, counted, marks, counts⟩ := ih (if isLocal then owner else
        ownerKey t.name (seen.count ((if isLocal then owner else ""), t.name)))
        (seen.add ((if isLocal then owner else ""), t.name))
      refine ⟨keeper, counted, congrArg (_ :: ·) marks, ?_⟩
      intro home name absent
      have other : t.name ≠ name :=
        absent ⟨t, .binder kind access isLocal, scopeEnd⟩ (List.mem_cons_self ..) (by simp)
      rw [counts home name fun x inside => absent x (List.mem_cons_of_mem _ inside), Tally.count_add, if_neg]
      intro same
      exact other (congrArg Prod.snd same).symm
    | reference kind =>
      obtain ⟨keeper, counted, marks, counts⟩ := ih owner seen
      refine ⟨keeper, counted, congrArg (_ :: ·) marks, ?_⟩
      exact fun home name absent => counts home name fun x inside => absent x (List.mem_cons_of_mem _ inside)
    | qualifier | other =>
      obtain ⟨keeper, counted, marks, counts⟩ := ih owner seen
      refine ⟨keeper, counted, marks, ?_⟩
      exact fun home name absent => counts home name fun x inside => absent x (List.mem_cons_of_mem _ inside)

/-- The marks below other ones. Owners agree from the first name of the module on, and counts agree for each name that
is bound here. -/
theorem marksFrom_follows {bytes lines : Nat} (path : Path) {items below : List ScopedToken}
    (follows : List.Forall₂ (ScopedToken.Follows bytes lines) items below) {owner keeper : String}
    (owned : keeper = owner ∨ bindsTopFirst (items.map (·.role)) = true) {seen counted : Tally (String × String)}
    (counts : ∀ home b, .binding b ∈ marksFrom path owner seen items →
      counted.count (home, b.token.name) = seen.count (home, b.token.name)) :
    List.Forall₂ (Mark.Follows bytes lines) (marksFrom path owner seen items)
      (marksFrom path keeper counted below) := by
  induction follows generalizing owner keeper seen counted with
  | nil => exact .nil
  | @cons x y items below here _ ih =>
    obtain ⟨t, role, scopeEnd⟩ := x
    obtain ⟨u, _, scopeStop⟩ := y
    obtain ⟨rfl, alike, rfl⟩ := here
    cases alike with
    | references kind used =>
      refine .cons (.reference ⟨t, kind⟩ used) (ih owned ?_)
      exact fun home b later => counts home b (List.mem_cons_of_mem _ later)
    | same =>
      cases role with
      | binder kind access isLocal =>
        have home : (if isLocal then keeper else "") = if isLocal then owner else "" := by
          rcases owned with same | top
          · rw [same]
          · have outside : isLocal = false := by simpa [bindsTopFirst] using top
            rw [outside]
            rfl
        have ordinal := counts (if isLocal then owner else "") _ (List.mem_cons_self ..)
        simp only [marksFrom, Token.name_moved, home, ordinal]
        refine .cons ?_ (ih ?_ ?_)
        · cases isLocal <;> exact .binding _
        · cases isLocal with
          | false => exact .inl rfl
          | true => exact .inl (owned.resolve_right (by simp [bindsTopFirst]))
        · intro home b later
          rw [Tally.count_add, Tally.count_add, counts home b (List.mem_cons_of_mem _ later)]
      | reference kind =>
        refine .cons (.reference ⟨t, kind⟩ kind) (ih owned ?_)
        exact fun home b later => counts home b (List.mem_cons_of_mem _ later)
      | qualifier | other => exact ih owned counts

/-- What may stand above a text: it ends its last line and its regions, an arrow follows each `fun`, and no identifier
has a name that is bound below. The text below begins with a declaration of the module that binds a name. -/
structure Insertable (path : Path) (defines : List String) (above below : String) : Prop where
  ended : above.toList.getLast? = some '\n'
  closed : ∀ d ∈ (lex above defines).diagnostics, d.fault ≠ .openRegion
  lambdas : endsLambdas (code (lex above defines).tokens) = true
  fresh : ∀ t ∈ (lex above defines).tokens, t.isIdentifier = true →
    ∀ b ∈ (Analysis.ofText path below defines).bindings, b.symbol.name ≠ t.name
  declares : declaresFirst (code (lex below defines).tokens) = true

namespace Insertable

variable {path : Path} {defines : List String} {above below : String}

theorem roles (fits : Insertable path defines above below) :
    ∃ front behind, Check.roles (lex (above ++ below) defines).tokens = front ++ behind ∧
      front.map (·.1) = code (lex above defines).tokens ∧
      List.Forall₂ (RoleFollows above.utf8ByteSize (above.toList.count '\n'))
        (Check.roles (lex below defines).tokens) behind := by
  have lines : ∀ t ∈ code (lex above defines).tokens, t.line < above.toList.count '\n' :=
    fun t inside => line_lt_count fits.ended (List.mem_of_mem_filter inside)
  have start : Settles (above.toList.count '\n') ⟨false, .plain⟩ (code (lex above defines).tokens) :=
    ⟨fits.lambdas, by simp, by simp, lines⟩
  obtain ⟨front, last, whole, tokens⟩ := rolesFrom_append ⟨false, .plain⟩ none (code (lex above defines).tokens)
    ((code (lex below defines).tokens).map (.moved above.utf8ByteSize (above.toList.count '\n')))
  have settled := start.stateBehind none
    ((code (lex below defines).tokens).map (.moved above.utf8ByteSize (above.toList.count '\n')))
  have read : code (lex (above ++ below) defines).tokens = code (lex above defines).tokens ++
      (code (lex below defines).tokens).map (.moved above.utf8ByteSize (above.toList.count '\n')) := by
    rw [tokens_inserted fits.ended fits.closed below, ← code_moved]
    exact List.filter_append ..
  exact ⟨front, _, (congrArg _ read).trans whole, tokens, settled.follows (Nat.le_refl _) last fits.declares⟩

theorem marks (fits : Insertable path defines above below) :
    ∃ front behind, (Analysis.ofText path (above ++ below) defines).marks = front ++ behind ∧
      (∀ m ∈ front, ∀ b ∈ (Analysis.ofText path below defines).bindings, b.symbol.name ≠ m.token.name) ∧
      List.Forall₂ (Mark.Follows above.utf8ByteSize (above.toList.count '\n'))
        (Analysis.ofText path below defines).marks behind := by
  obtain ⟨front, behind, roles, tokens, follows⟩ := fits.roles
  obtain ⟨items, scopes, same⟩ := withScopes_append front behind
  have named : ∀ x ∈ items, x.role ≠ .other →
      ∀ b ∈ (Analysis.ofText path below defines).bindings, b.symbol.name ≠ x.token.name := by
    intro x inside marked
    have member : (x.token, x.role) ∈ front := same ▸ List.mem_map_of_mem inside
    have read : (x.token, x.role) ∈ Check.roles (lex (above ++ below) defines).tokens :=
      roles ▸ List.mem_append_left _ member
    have token : x.token ∈ code (lex above defines).tokens := tokens ▸ List.mem_map_of_mem member
    exact fits.fresh x.token (List.mem_of_mem_filter token) (isIdentifier_of_role read marked)
  obtain ⟨keeper, counted, marks, counts⟩ := marksFrom_append path "" .empty items (withScopes behind)
  refine ⟨marksFrom path "" .empty items, marksFrom path keeper counted (withScopes behind), ?_, ?_,
    marksFrom_follows path (withScopes_follows follows) (.inr ?_) ?_⟩
  · rw [Analysis.ofText, roles, scopes]
    exact marks
  · intro m inside
    obtain ⟨x, member, token, marked, -⟩ := item_of_mem inside
    rw [← token]
    exact named x member marked
  · have roles := congrArg (List.map Prod.snd) (map_withScopes (Check.roles (lex below defines).tokens))
    rw [List.map_map] at roles
    exact roles ▸ bindsTopFirst_of_declaresFirst fits.declares
  · intro home b inside
    have bound : b ∈ (Analysis.ofText path below defines).bindings := mem_bindings.mpr inside
    refine counts home b.token.name fun x member marked => ?_
    rw [← (symbol_of_binding bound).1]
    exact (named x member marked b bound).symm

end Insertable

/-- A mark with what it stands for, and the same mark below a text. What stands for a binding stands for the same one
there. What stands for nothing may stand for a binding above, but not for one that has a name bound here. -/
inductive Mark.Survives (bytes lines : Nat) (bound : List Binding) :
    Mark × Option Binding → Mark × Option Binding → Prop where
  | binding (b : Binding) : Mark.Survives bytes lines bound (.binding b, some b)
      (.binding (b.moved bytes lines), some (b.moved bytes lines))
  | resolved (r : Reference) (kind : Occurrence) (b : Binding) : Mark.Survives bytes lines bound (.reference r, some b)
      (.reference ⟨r.token.moved bytes lines, kind⟩, some (b.moved bytes lines))
  | unresolved (r : Reference) (kind : Occurrence) (found : Option Binding)
      (other : ∀ c ∈ found, ∀ b ∈ bound, b.symbol.name ≠ c.symbol.name) :
      Mark.Survives bytes lines bound (.reference r, none) (.reference ⟨r.token.moved bytes lines, kind⟩, found)

namespace Environment

theorem resolutionsFrom_append (env : Environment) (path : Path) (before : List Binding) (front behind : List Mark) :
    ∃ met, env.resolutionsFrom path (.ofList before) (front ++ behind) =
        env.resolutionsFrom path (.ofList before) front ++ env.resolutionsFrom path (.ofList (met ++ before)) behind ∧
      ∀ b ∈ met, .binding b ∈ front := by
  induction front generalizing before with
  | nil => exact ⟨[], rfl, by simp⟩
  | cons mark front ih =>
    cases mark with
    | binding b =>
      obtain ⟨met, whole, inside⟩ := ih (b :: before)
      refine ⟨met ++ [b], ?_, ?_⟩
      · rw [OwnBindings.ofList_cons] at whole
        rw [List.append_assoc]
        exact congrArg (_ :: ·) whole
      · intro c member
        rcases List.mem_append.mp member with later | here
        · exact List.mem_cons_of_mem _ (inside c later)
        · rw [List.mem_singleton.mp here]
          exact List.mem_cons_self ..
    | reference r =>
      obtain ⟨met, whole, inside⟩ := ih before
      exact ⟨met, congrArg (_ :: ·) whole, fun c member => List.mem_cons_of_mem _ (inside c member)⟩

variable {bytes lines : Nat} {path : Path} {options changed : Options} {bound met : List Binding}

private theorem resolve?_moved (alone : foreign options path = []) (still : foreign changed path = [])
    (before : List Binding) (r : Reference) (kind : Occurrence) :
    (ofOptions changed).resolve? path (.ofList (before.map (.moved bytes lines) ++ met))
        ⟨r.token.moved bytes lines, kind⟩ =
      (((ofOptions options).resolve? path (.ofList before) r).map (.moved bytes lines)).or
        ((met.filter (·.covers (bytes + r.offset))).find? (·.symbol.name = r.name)) := by
  have offset : Reference.offset ⟨r.token.moved bytes lines, kind⟩ = bytes + r.offset := rfl
  have name : Reference.name ⟨r.token.moved bytes lines, kind⟩ = r.name := rfl
  rw [resolve?_eq_find?, resolve?_eq_find?, candidates_eq, candidates_eq, alone, still, List.append_nil,
    List.append_nil, offset, name, List.filter_append, List.find?_append, List.filter_map, List.find?_map]
  simp only [Function.comp_def, Binding.covers_moved]
  rfl

private theorem resolutionsFrom_survives (alone : foreign options path = []) (still : foreign changed path = [])
    (fresh : ∀ c ∈ met, ∀ b ∈ bound, b.symbol.name ≠ c.symbol.name) {marks below : List Mark}
    (follows : List.Forall₂ (Mark.Follows bytes lines) marks below) (before : List Binding) :
    List.Forall₂ (Mark.Survives bytes lines bound) ((ofOptions options).resolutionsFrom path (.ofList before) marks)
      ((ofOptions changed).resolutionsFrom path (.ofList (before.map (.moved bytes lines) ++ met)) below) := by
  induction follows generalizing before with
  | nil => exact .nil
  | cons here _ ih =>
    cases here with
    | binding b =>
      have later := ih (b :: before)
      rw [List.map_cons, List.cons_append, OwnBindings.ofList_cons, OwnBindings.ofList_cons] at later
      exact .cons (.binding b) later
    | reference r kind =>
      refine .cons ?_ (ih before)
      rw [resolve?_moved alone still]
      cases (ofOptions options).resolve? path (.ofList before) r with
      | some b => exact .resolved r kind b
      | none =>
        refine .unresolved r kind _ fun c found => fresh c ?_
        exact List.mem_of_mem_filter (List.mem_of_find?_eq_some found)

end Environment

namespace Insertable

variable {path : Path} {defines : List String} {above below : String} {options changed : Options}
  (fits : Insertable path defines above below) (alone : Environment.foreign options path = [])
  (still : Environment.foreign changed path = [])

include fits alone still

/-- What the marks of a text stand for below another one. -/
theorem resolutions :
    ∃ front behind,
      (Environment.ofOptions changed).resolutions (Analysis.ofText path (above ++ below) defines) = front ++ behind ∧
      (∀ x ∈ front, ∀ b ∈ (Analysis.ofText path below defines).bindings, b.symbol.name ≠ x.1.token.name) ∧
      List.Forall₂ (Mark.Survives above.utf8ByteSize (above.toList.count '\n')
          (Analysis.ofText path below defines).bindings)
        ((Environment.ofOptions options).resolutions (Analysis.ofText path below defines)) behind := by
  obtain ⟨front, behind, marks, named, follows⟩ := fits.marks
  obtain ⟨met, whole, inside⟩ := (Environment.ofOptions changed).resolutionsFrom_append path [] front behind
  refine ⟨_, _, (congrArg (Environment.resolutionsFrom _ path .empty) marks).trans whole, ?_, ?_⟩
  · intro x member
    have mark : x.1 ∈ ((Environment.ofOptions changed).resolutionsFrom path (.ofList []) front).map (·.1) :=
      List.mem_map_of_mem member
    rw [Environment.map_fst_resolutionsFrom] at mark
    exact named x.1 mark
  · rw [List.append_nil]
    refine Environment.resolutionsFrom_survives alone still ?_ follows []
    intro c member
    have marked : .binding c ∈ (Analysis.ofText path (above ++ below) defines).marks :=
      marks ▸ List.mem_append_left _ (inside c member)
    rw [(symbol_of_binding (mem_bindings.mpr marked)).1]
    exact named (.binding c) (inside c member)

theorem exists_survivor {x : Mark × Option Binding}
    (member : x ∈ (Environment.ofOptions options).resolutions (Analysis.ofText path below defines)) :
    ∃ y ∈ (Environment.ofOptions changed).resolutions (Analysis.ofText path (above ++ below) defines),
      Mark.Survives above.utf8ByteSize (above.toList.count '\n') (Analysis.ofText path below defines).bindings x y := by
  obtain ⟨front, behind, whole, -, survives⟩ := fits.resolutions alone still
  obtain ⟨same, each⟩ := List.forall₂_iff_get.mp survives
  obtain ⟨i, rfl⟩ := List.mem_iff_get.mp member
  refine ⟨behind.get ⟨i, same ▸ i.isLt⟩, ?_, each i i.isLt _⟩
  rw [whole]
  exact List.mem_append_right _ (List.get_mem ..)

end Insertable

end Check

end CrossRef
