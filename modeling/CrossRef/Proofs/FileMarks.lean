import CrossRef.Proofs.SymbolIdentity
import CrossRef.Proofs.TokenPlaces
import CrossRef.Solution.Options
import Mathlib.Data.List.Pairwise

/-! The marks of a file stand at its identifiers, in their order, and each binding has an identity that it
shares with no other binding of its name. -/

namespace CrossRef.Check
open Syntax

def Mark.token : Mark → Token
  | .binding b => b.token
  | .reference r => r.token

theorem map_fst_rolesFrom (state : ReaderState) (previous : Option Token) (tokens : List Token) :
    (rolesFrom state previous tokens).map (·.1) = tokens := by
  induction tokens generalizing state previous with
  | nil => rfl
  | cons t ts ih => simp [rolesFrom, ih]

private theorem readPlain_of_not_identifier {inAttribute : Bool} {previous : Option Token} {t : Token}
    {rest : List Token} (other : t.isIdentifier = false) : (readPlain inAttribute previous t rest).1 = .other := by
  unfold readPlain
  split_ifs <;> simp_all

private theorem read_of_not_identifier {state : ReaderState} {previous : Option Token} {t : Token} {rest : List Token}
    (other : t.isIdentifier = false) : (read state previous t rest).1 = .other := by
  have plain : (readPlain state.inAttribute previous t rest).1 = .other := readPlain_of_not_identifier other
  unfold read
  split
  · exact plain
  · split_ifs <;> simp_all
  · split_ifs <;> simp_all [parameterRole]
  · split_ifs <;> simp_all [parameterRole]

theorem isIdentifier_of_role {state : ReaderState} {previous : Option Token} {tokens : List Token} {t : Token}
    {role : Role} (member : (t, role) ∈ rolesFrom state previous tokens) (marked : role ≠ .other) :
    t.isIdentifier = true := by
  induction tokens generalizing state previous with
  | nil => cases member
  | cons first rest ih =>
    rcases List.mem_cons.mp member with here | later
    · obtain ⟨rfl, rfl⟩ := Prod.mk.inj here
      by_contra other
      exact marked (read_of_not_identifier (by simpa using other))
    · exact ih later

theorem map_withScopes (roles : List (Token × Role)) :
    (withScopes roles).map (fun x => (x.token, x.role)) = roles := by
  induction roles with
  | nil => rfl
  | cons first rest ih =>
    obtain ⟨t, role⟩ := first
    simp [ih]

theorem nextTopLevel?_cons (a : Token × Role) (rest : List (Token × Role)) :
    nextTopLevel? (a :: rest) = if startsTopLevel a.1 then some a.1.span.start else nextTopLevel? rest := by
  cases top : startsTopLevel a.1 <;> simp [nextTopLevel?, top]

/-- The names that local bindings are owned by. -/
def IsHome (owner : String) (items : List ScopedToken) (home : String) : Prop :=
  home = "" ∨ home = owner ∨
    ∃ x ∈ items, x.role ≠ .other ∧ ∃ ordinal, home = ownerKey x.token.name ordinal

theorem IsHome.cons {owner home : String} {items : List ScopedToken} (found : IsHome owner items home)
    (x : ScopedToken) : IsHome owner (x :: items) home := by
  rcases found with empty | same | ⟨y, member, marked, owned⟩
  · exact .inl empty
  · exact .inr (.inl same)
  · exact .inr (.inr ⟨y, List.mem_cons_of_mem _ member, marked, owned⟩)

private theorem count_le_count_add (seen : Tally (String × String)) (key other : String × String) :
    seen.count key ≤ (seen.add other).count key := by
  rw [Tally.count_add]
  split <;> omega

theorem binding_of_mem {path : Path} {owner : String} {seen : Tally (String × String)}
    {items : List ScopedToken} {b : Binding} (member : .binding b ∈ marksFrom path owner seen items) :
    ∃ home ordinal kind access isLocal scopeEnd,
      ⟨b.token, .binder kind access isLocal, scopeEnd⟩ ∈ items ∧ IsHome owner items home ∧
        seen.count (home, b.token.name) ≤ ordinal ∧
        b = ⟨symbolOf path home ordinal b.token kind access isLocal, b.token,
          if isLocal then scopeEnd else none⟩ := by
  induction items generalizing owner seen with
  | nil => cases member
  | cons x rest ih =>
    obtain ⟨t, role, scopeEnd⟩ := x
    cases role with
    | binder kind access isLocal =>
      rcases List.mem_cons.mp member with here | later
      · cases here
        refine ⟨_, _, kind, access, isLocal, scopeEnd, List.mem_cons_self .., ?_, Nat.le_refl _, rfl⟩
        cases isLocal
        · exact .inl rfl
        · exact .inr (.inl rfl)
      · obtain ⟨home, ordinal, k, a, l, e, inside, isHome, below, made⟩ := ih later
        refine ⟨home, ordinal, k, a, l, e, List.mem_cons_of_mem _ inside, ?_, ?_, made⟩
        · rcases isHome with empty | same | ⟨y, known, marked, owned⟩
          · exact .inl empty
          · cases isLocal
            · exact .inr (.inr ⟨_, List.mem_cons_self .., by simp, _, same⟩)
            · exact .inr (.inl same)
          · exact .inr (.inr ⟨y, List.mem_cons_of_mem _ known, marked, owned⟩)
        · exact Nat.le_trans (count_le_count_add seen _ _) below
    | reference kind =>
      rcases List.mem_cons.mp member with here | later
      · cases here
      · obtain ⟨home, ordinal, k, a, l, e, inside, isHome, rest⟩ := ih later
        exact ⟨home, ordinal, k, a, l, e, List.mem_cons_of_mem _ inside, isHome.cons _, rest⟩
    | qualifier | other =>
      obtain ⟨home, ordinal, k, a, l, e, inside, isHome, rest⟩ := ih member
      exact ⟨home, ordinal, k, a, l, e, List.mem_cons_of_mem _ inside, isHome.cons _, rest⟩

/-- Bindings of one name never share an identity. -/
theorem pairwise_identities (path : Path) (owner : String) (seen : Tally (String × String))
    (items : List ScopedToken) :
    (marksFrom path owner seen items).Pairwise fun m n => ∀ b c, m = .binding b → n = .binding c →
      b.symbol.name = c.symbol.name → b.symbol.id ≠ c.symbol.id := by
  induction items generalizing owner seen with
  | nil => exact List.Pairwise.nil
  | cons x rest ih =>
    obtain ⟨t, role, scopeEnd⟩ := x
    cases role with
    | binder kind access isLocal =>
      refine List.pairwise_cons.mpr ⟨?_, ih _ _⟩
      rintro n later b c here rfl named same
      cases here
      obtain ⟨home, ordinal, k, a, l, e, -, -, below, made⟩ := binding_of_mem later
      rw [made] at named same
      have names : t.name = c.token.name := named
      simp only [symbolOf, names] at same
      obtain ⟨rfl, rfl⟩ := owner_of_identity same
      rw [Tally.count_add, if_pos (by rw [names])] at below
      omega
    | reference kind =>
      refine List.pairwise_cons.mpr ⟨?_, ih _ _⟩
      rintro n later b c here
      cases here
    | qualifier | other => exact ih _ _

theorem item_of_mem {path : Path} {owner : String} {seen : Tally (String × String)}
    {items : List ScopedToken} {m : Mark} (member : m ∈ marksFrom path owner seen items) :
    ∃ x ∈ items, x.token = m.token ∧ x.role ≠ .other ∧ x.role ≠ .qualifier := by
  induction items generalizing owner seen with
  | nil => cases member
  | cons x rest ih =>
    obtain ⟨t, role, scopeEnd⟩ := x
    have later : ∀ {owner seen}, m ∈ marksFrom path owner seen rest →
        ∃ x ∈ ⟨t, role, scopeEnd⟩ :: rest, x.token = m.token ∧ x.role ≠ .other ∧ x.role ≠ .qualifier := by
      intro owner seen inside
      obtain ⟨y, known, rest⟩ := ih inside
      exact ⟨y, List.mem_cons_of_mem _ known, rest⟩
    cases role with
    | binder kind access isLocal =>
      rcases List.mem_cons.mp member with rfl | inside
      · exact ⟨_, List.mem_cons_self .., rfl, by simp, by simp⟩
      · exact later inside
    | reference kind =>
      rcases List.mem_cons.mp member with rfl | inside
      · exact ⟨_, List.mem_cons_self .., rfl, by simp, by simp⟩
      · exact later inside
    | qualifier | other => exact later member

private theorem map_token_marksFrom (path : Path) (owner : String) (seen : Tally (String × String))
    (items : List ScopedToken) : ((marksFrom path owner seen items).map Mark.token).Sublist (items.map (·.token)) := by
  induction items generalizing owner seen with
  | nil => exact .slnil
  | cons x rest ih =>
    obtain ⟨t, role, scopeEnd⟩ := x
    cases role with
    | binder kind access isLocal => exact (ih _ _).cons_cons t
    | reference kind => exact (ih _ _).cons_cons t
    | qualifier | other => exact (ih _ _).cons t

theorem map_token_sublist (path : Path) (text : String) (defines : List String) :
    ((Analysis.ofText path text defines).marks.map Mark.token).Sublist (lex text defines).tokens := by
  refine (map_token_marksFrom path "" .empty _).trans ?_
  have tokens := congrArg (List.map Prod.fst) (map_withScopes (roles (lex text defines).tokens))
  rw [List.map_map, roles, map_fst_rolesFrom] at tokens
  exact tokens ▸ List.filter_sublist

theorem nodup_marks (path : Path) (text : String) (defines : List String) :
    ((Analysis.ofText path text defines).marks.map Mark.token).Nodup :=
  (nodup_allTokens text).sublist ((map_token_sublist path text defines).trans (lex_sublist text defines))

private theorem identifier_of_item {tokens : List Token} {x : ScopedToken} (member : x ∈ withScopes (roles tokens))
    (marked : x.role ≠ .other) : x.token ∈ tokens ∧ x.token.isIdentifier = true := by
  have role : (x.token, x.role) ∈ roles tokens := by
    rw [← map_withScopes (roles tokens)]
    exact List.mem_map_of_mem member
  refine ⟨?_, isIdentifier_of_role role marked⟩
  have listed : x.token ∈ (roles tokens).map (·.1) := List.mem_map_of_mem role
  rw [roles, map_fst_rolesFrom] at listed
  exact List.mem_of_mem_filter listed

theorem identifier_of_mark {path : Path} {text : String} {defines : List String} {m : Mark}
    (member : m ∈ (Analysis.ofText path text defines).marks) :
    m.token ∈ (lex text defines).tokens ∧ m.token.isIdentifier = true := by
  obtain ⟨x, inside, same, marked, -⟩ := item_of_mem member
  exact same ▸ identifier_of_item inside marked

theorem role_of_mark {path : Path} {text : String} {defines : List String} {m : Mark}
    (member : m ∈ (Analysis.ofText path text defines).marks) :
    ∃ role, (m.token, role) ∈ roles (lex text defines).tokens ∧ role ≠ .qualifier := by
  obtain ⟨x, inside, same, -, named⟩ := item_of_mem member
  refine ⟨x.role, ?_, named⟩
  rw [← map_withScopes (roles _), ← same]
  exact List.mem_map_of_mem inside

theorem mem_bindings {a : Analysis} {b : Binding} : b ∈ a.bindings ↔ .binding b ∈ a.marks := by
  rw [Analysis.bindings, List.mem_filterMap]
  constructor
  · rintro ⟨m, member, found⟩
    cases m with
    | reference r => cases found
    | binding c =>
      cases found
      exact member
  · intro member
    exact ⟨_, member, rfl⟩

theorem symbol_of_binding {path : Path} {text : String} {defines : List String} {b : Binding}
    (bound : b ∈ (Analysis.ofText path text defines).bindings) :
    b.symbol.name = b.token.name ∧ b.symbol.declaration = some ⟨path, b.token.range⟩ ∧
      ∃ home ordinal, b.symbol.id = identity path home b.symbol.name ordinal ∧
        (home = "" ∨ ∃ t ∈ (lex text defines).tokens, t.isIdentifier = true ∧ ∃ n, home = ownerKey t.name n) := by
  obtain ⟨home, ordinal, kind, access, isLocal, scopeEnd, -, isHome, -, made⟩ := binding_of_mem (mem_bindings.mp bound)
  have symbol : b.symbol = symbolOf path home ordinal b.token kind access isLocal := by rw [made]
  refine ⟨by rw [symbol]; rfl, by rw [symbol]; rfl, home, ordinal, by rw [symbol]; rfl, ?_⟩
  rcases isHome with empty | empty | ⟨x, inside, marked, n, owner⟩
  · exact .inl empty
  · exact .inl empty
  · obtain ⟨member, named⟩ := identifier_of_item inside marked
    exact .inr ⟨x.token, member, named, n, owner⟩

theorem binding_unique {path : Path} {text : String} {defines : List String} {b c : Binding}
    (first : b ∈ (Analysis.ofText path text defines).bindings)
    (second : c ∈ (Analysis.ofText path text defines).bindings) (named : b.symbol.name = c.symbol.name)
    (same : b.symbol.id = c.symbol.id) : b = c := by
  have : Std.Symm fun m n : Mark => ∀ b c, m = .binding b → n = .binding c →
      b.symbol.name = c.symbol.name → b.symbol.id ≠ c.symbol.id :=
    ⟨fun m n different b c here there named => (different c b there here named.symm).symm⟩
  by_contra other
  have different := (pairwise_identities path "" .empty _).forall (mem_bindings.mp first) (mem_bindings.mp second)
    (by simpa using other)
  exact different b c rfl rfl named same

private theorem pairwise_bindings (path : Path) (text : String) (defines : List String) :
    (Analysis.ofText path text defines).bindings.Pairwise fun b c =>
      b.symbol.name = c.symbol.name → b.symbol.id ≠ c.symbol.id := by
  rw [Analysis.bindings, List.pairwise_filterMap]
  refine (pairwise_identities path "" .empty _).imp ?_
  intro m n different b here c there
  cases m <;> cases here
  cases n <;> cases there
  exact different b c rfl rfl

private theorem identity_ne_of_path {path other : Path} {text shown : String} {defines flags : List String}
    {b c : Binding} (bound : b ∈ (Analysis.ofText path text defines).bindings)
    (known : c ∈ (Analysis.ofText other shown flags).bindings) (plain : ':' ∉ path.text.toList)
    (free : ':' ∉ other.text.toList) (apart : path ≠ other) :
    b.symbol.id ≠ c.symbol.id := by
  intro same
  obtain ⟨-, -, _, _, made, -⟩ := symbol_of_binding bound
  obtain ⟨-, -, _, _, makes, -⟩ := symbol_of_binding known
  exact apart (path_of_identity plain free (made.symm.trans (same.trans makes)))

/-- Bindings of one name never share an identity, in one file or in several, whatever signs the names have. -/
theorem namesakes_never_share_identity {files : List (SourceFile × List String)}
    (distinct : files.Pairwise fun f g => f.1.path ≠ g.1.path) (plain : ∀ f ∈ files, ':' ∉ f.1.path.text.toList) :
    (∀ f ∈ files, ∀ b ∈ (Analysis.ofText f.1.path f.1.text f.2).bindings, ∃ owner ordinal,
      b.symbol.id.text = f.1.path.text ++ ":" ++ owner ++ "/" ++ b.symbol.name ++ "#" ++ toString (ordinal : Nat)) ∧
    (files.flatMap fun f => (Analysis.ofText f.1.path f.1.text f.2).bindings).Pairwise fun b c =>
      b.symbol.name = c.symbol.name → b.symbol.id ≠ c.symbol.id := by
  constructor
  · intro f _ b bound
    obtain ⟨-, -, owner, ordinal, made, -⟩ := symbol_of_binding bound
    exact ⟨owner, ordinal, congrArg SymbolId.text made⟩
  · rw [List.pairwise_flatMap]
    constructor
    · intro f _
      exact pairwise_bindings f.1.path f.1.text f.2
    · refine distinct.imp_of_mem ?_
      intro f g first second apart b bound c known _
      exact identity_ne_of_path bound known (plain f first) (plain g second) apart

-- Names of their own can share one: `c` below a quoted name, and a quoted name below `a`.
example : identity (.ofText "a.ml") (ownerKey "a#0/b" 0) "c" 0 =
    identity (.ofText "a.ml") (ownerKey "a" 0) "b#0/c" 0 := by
  decide

end CrossRef.Check

namespace CrossRef.Sample
open Check

/-- A name that is bound twice in a module, and twice below a name that looks like an identity. -/
def namesakes : List (SourceFile × List String) :=
  [(⟨.ofText "a.ml", 0, "let x = 1\nlet x = x + 1"⟩, []),
    (⟨.ofText "b/a.ml", 0, "let ``a.ml:/x#0`` x = fun x -> x"⟩, [])]

theorem namesakes_told_apart :
    (namesakes.flatMap fun f => (Analysis.ofText f.1.path f.1.text f.2).bindings).map (·.symbol.name) =
      ["x", "x", "a.ml:/x#0", "x", "x"] ∧
    (namesakes.flatMap fun f => (Analysis.ofText f.1.path f.1.text f.2).bindings).Pairwise fun b c =>
      b.symbol.name = c.symbol.name → b.symbol.id ≠ c.symbol.id := by
  have distinct : namesakes.Pairwise fun f g => f.1.path ≠ g.1.path := by decide
  have plain : ∀ f ∈ namesakes, ':' ∉ f.1.path.text.toList := by decide
  exact ⟨by decide +kernel, (namesakes_never_share_identity distinct plain).2⟩

end CrossRef.Sample
