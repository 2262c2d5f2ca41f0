import CrossRef.Proofs.TokenRoles

/-! Every identifier of a file is recorded once: it binds a name, or it refers to one, or it only stands in front of a
point. So no range has more than one symbol, and none is reported twice, unless it is an annotation. -/

namespace CrossRef.Check
open Syntax

inductive Recorded (tokens : List Token) (a : Analysis) (t : Token) : Prop
  | binding (b : Binding) (bound : a.bindings.filter (·.token = t) = [b])
      (alone : a.references.filter (·.token = t) = [])
  | reference (r : Reference) (unbound : a.bindings.filter (·.token = t) = [])
      (referred : a.references.filter (·.token = t) = [r]) (last : ¬IsQualifier tokens t)
  | qualifier (unbound : a.bindings.filter (·.token = t) = []) (alone : a.references.filter (·.token = t) = [])
      (followed : IsQualifier tokens t)

def Mark.annotates : Mark → Bool
  | .binding _ => false
  | .reference r => r.kind == .inType

def Analysis.annotates (a : Analysis) (range : Range) : Bool :=
  a.marks.any fun m => m.annotates && m.token.range == range

section lists

variable {α β κ : Type} [DecidableEq κ]

/-- Where each element gives what has its own key, those of one key give what has that key. -/
theorem filter_flatMap_of_key {f : α → κ} {key : β → κ} {g : α → List β} (keys : ∀ x, ∀ y ∈ g x, key y = f x)
    (l : List α) (k : κ) : (l.flatMap g).filter (key · = k) = (l.filter (f · = k)).flatMap g := by
  induction l with
  | nil => rfl
  | cons x rest ih =>
    rw [List.flatMap_cons, List.filter_append, ih, List.filter_cons]
    by_cases same : f x = k
    · have all : (g x).filter (key · = k) = g x := by
        rw [List.filter_eq_self]
        intro y inside
        rw [keys x y inside]
        exact decide_eq_true same
      rw [all, if_pos (decide_eq_true same), List.flatMap_cons]
    · have none : (g x).filter (key · = k) = [] := by
        rw [List.filter_eq_nil_iff]
        intro y inside
        rw [keys x y inside]
        simpa using same
      rw [none, if_neg (by simpa using same), List.nil_append]

end lists

section records

variable {path : Path} {text : String} {defines : List String} {t : Token}

private theorem unbound_of_role {role : Role} (plays : (t, role) ∈ roles (lex text defines).tokens)
    (other : ∀ kind access isLocal, role ≠ .binder kind access isLocal) :
    (Analysis.ofText path text defines).bindings.filter (·.token = t) = [] := by
  rw [List.filter_eq_nil_iff]
  intro b bound same
  have binds := binder_of_binding bound
  rw [of_decide_eq_true same] at binds
  exact other _ _ _ (role_unique plays binds)

private theorem unreferred_of_role {role : Role} (plays : (t, role) ∈ roles (lex text defines).tokens)
    (other : ∀ kind, role ≠ .reference kind) :
    (Analysis.ofText path text defines).references.filter (·.token = t) = [] := by
  rw [List.filter_eq_nil_iff]
  intro r referred same
  have refers := mem_references_iff.mp referred
  rw [of_decide_eq_true same] at refers
  exact other _ (role_unique plays refers)

private theorem recorded_of_identifier (path : Path) (member : t ∈ (lex text defines).tokens)
    (named : t.isIdentifier = true) :
    Recorded (lex text defines).tokens (Analysis.ofText path text defines) t := by
  obtain ⟨front, back, whole⟩ := List.append_of_mem (mem_code_of_identifier member named)
  have plays := role_at_split whole
  rcases read_identifier (stateBehind ⟨false, .plain⟩ none front (t :: back)) front.getLast? back named with
    ⟨kind, access, isLocal, binds⟩ | ⟨inAttribute, reads⟩
  · rw [binds] at plays
    obtain ⟨b, bound, rfl, -⟩ := @binding_of_role path _ _ _ _ _ _ plays
    refine .binding b ?_ (unreferred_of_role plays (by simp))
    exact filter_eq_singleton ((nodup_marks path text defines).sublist (map_token_bindings _)) bound
  · rw [reads] at plays
    rcases referenceRole_cases inAttribute front.getLast? t back with ⟨followed, role⟩ | ⟨last, kind, role, -⟩
    · rw [role] at plays
      exact .qualifier (unbound_of_role plays (by simp)) (unreferred_of_role plays (by simp))
        ((isQualifier_iff whole).mp followed)
    · rw [role] at plays
      have referred : ⟨t, kind⟩ ∈ (Analysis.ofText path text defines).references := mem_references_iff.mpr plays
      refine .reference ⟨t, kind⟩ (unbound_of_role plays (by simp)) ?_ ?_
      · exact filter_eq_singleton ((nodup_marks path text defines).sublist (map_token_references _)) referred
      · rw [← isQualifier_iff whole, last]
        exact Bool.false_ne_true

private theorem annotates_at_split {front back : List Token} {kind : Occurrence}
    (whole : code (lex text defines).tokens = front ++ t :: back)
    (refers : (t, .reference kind) ∈ roles (lex text defines).tokens) :
    kind = .inType ↔ kind ≠ .inAttribute ∧ front.getLast?.any (·.isPunct ":") = true := by
  have role := role_unique refers (role_at_split whole)
  have named := isIdentifier_of_role refers (by simp)
  rcases read_identifier (stateBehind ⟨false, .plain⟩ none front (t :: back)) front.getLast? back named with
    ⟨_, _, _, binds⟩ | ⟨inAttribute, reads⟩
  · rw [binds] at role
    cases role
  · rw [reads] at role
    rcases referenceRole_cases inAttribute front.getLast? t back with ⟨-, other⟩ | ⟨-, occurrence, other, annotated⟩
    · rw [other] at role
      cases role
    · obtain rfl := Role.reference.inj (role.trans other)
      exact annotated

theorem annotates_iff {r : Reference} (referred : r ∈ (Analysis.ofText path text defines).references) :
    r.kind = .inType ↔ r.kind ≠ .inAttribute ∧ ∃ front colon back,
      code (lex text defines).tokens = front ++ colon :: r.token :: back ∧ colon.isPunct ":" = true := by
  have refers := mem_references_iff.mp referred
  constructor
  · intro annotated
    obtain ⟨front, back, whole, -⟩ := split_of_role refers
    obtain ⟨outside, behind⟩ := (annotates_at_split whole refers).mp annotated
    obtain ⟨colon, last, sign⟩ := (Option.any_eq_true ..).mp behind
    obtain ⟨before, rfl⟩ := List.getLast?_eq_some_iff.mp last
    exact ⟨outside, before, colon, back, by rw [whole, List.append_assoc]; rfl, sign⟩
  · rintro ⟨outside, before, colon, back, whole, sign⟩
    have whole : code (lex text defines).tokens = (before ++ [colon]) ++ r.token :: back := by simp [whole]
    exact (annotates_at_split whole refers).mpr ⟨outside, by simp [sign]⟩

end records

section uses

variable {path : Path} {u : Use}

private theorem usesOfMark_eq {x : Mark × Option Binding} (reported : u ∈ Environment.usesOfMark path x) :
    u.place = ⟨path, x.1.token.range⟩ ∧
      Environment.usesOfMark path x =
        if x.1.annotates then [⟨u.symbol, u.place, .use⟩, ⟨u.symbol, u.place, .inType⟩] else [u] := by
  obtain ⟨m, found⟩ := x
  cases m with
  | binding b =>
    obtain rfl := List.mem_singleton.mp reported
    exact ⟨rfl, rfl⟩
  | reference r =>
    cases found with
    | none => cases reported
    | some b =>
      simp only [Environment.usesOfMark, Environment.usesAt] at reported ⊢
      by_cases annotated : r.kind = .inType
      · rw [if_pos annotated] at reported
        simp only [Mark.annotates, annotated]
        rcases List.mem_cons.mp reported with rfl | last
        · exact ⟨rfl, rfl⟩
        · obtain rfl := List.mem_singleton.mp last
          exact ⟨rfl, rfl⟩
      · rw [if_neg annotated] at reported
        obtain rfl := List.mem_singleton.mp reported
        simp [Mark.annotates, annotated, Mark.token]

private theorem nodup_ranges_of_marks (path : Path) (text : String) (defines : List String) :
    ((Analysis.ofText path text defines).marks.map (·.token.range)).Nodup := by
  have tokens := nodup_marks path text defines
  have known : ∀ m ∈ (Analysis.ofText path text defines).marks, m.token ∈ allTokens text :=
    fun m marked => (lex_sublist text defines).subset (identifier_of_mark marked).1
  refine List.Nodup.map_on ?_ tokens.of_map
  intro m first n second same
  exact List.inj_on_of_nodup_map tokens first second (eq_of_range (known m first) (known n second) same)

private theorem annotates_range {text : String} {defines : List String} {m : Mark}
    (marked : m ∈ (Analysis.ofText path text defines).marks) :
    (Analysis.ofText path text defines).annotates m.token.range = m.annotates := by
  rw [Analysis.annotates, Bool.eq_iff_iff, List.any_eq_true]
  constructor
  · rintro ⟨n, other, meets⟩
    rw [Bool.and_eq_true, beq_iff_eq] at meets
    have same := List.inj_on_of_nodup_map (nodup_ranges_of_marks path text defines) other marked meets.2
    exact same ▸ meets.1
  · intro annotated
    exact ⟨m, marked, by simp [annotated]⟩

/-- All that is reported at a range is reported at the one mark that stands there. -/
theorem filter_uses_eq (env : Environment) {text : String} {defines : List String}
    (reported : u ∈ env.uses (Analysis.ofText path text defines)) :
    (env.uses (Analysis.ofText path text defines)).filter (·.place.range = u.place.range) =
      if (Analysis.ofText path text defines).annotates u.place.range then
        [⟨u.symbol, u.place, .use⟩, ⟨u.symbol, u.place, .inType⟩]
      else [u] := by
  have marks := env.map_fst_resolutions (Analysis.ofText path text defines)
  rw [Environment.uses_eq] at reported
  obtain ⟨x, resolved, here⟩ := List.mem_flatMap.mp reported
  obtain ⟨place, only⟩ := usesOfMark_eq here
  have distinct : ((env.resolutions (Analysis.ofText path text defines)).map (·.1.token.range)).Nodup := by
    have ranges := nodup_ranges_of_marks path text defines
    rwa [← marks, List.map_map] at ranges
  have marked : x.1 ∈ (Analysis.ofText path text defines).marks := by
    rw [← marks]
    exact List.mem_map_of_mem resolved
  have keys : ∀ x, ∀ v ∈ Environment.usesOfMark path x, v.place.range = x.1.token.range := by
    intro x v inside
    rw [(usesOfMark_eq inside).1]
  rw [Environment.uses_eq, show (Analysis.ofText path text defines).path = path from rfl, filter_flatMap_of_key keys,
    keys x u here, filter_eq_singleton distinct resolved, List.flatMap_singleton, annotates_range marked]
  exact only

end uses

/-- Each identifier is recorded once, and nothing else is. What a check reports at a range is one use, or two of one
symbol if an annotation stands there. -/
theorem identifiers_classified_once (path : Path) (text : String) (defines : List String) :
    (∀ t ∈ (lex text defines).tokens, t.isIdentifier = true →
      Recorded (lex text defines).tokens (Analysis.ofText path text defines) t) ∧
    (∀ m ∈ (Analysis.ofText path text defines).marks, m.token ∈ (lex text defines).tokens ∧
      m.token.isIdentifier = true) ∧
    (∀ r ∈ (Analysis.ofText path text defines).references, r.kind = .inType ↔ r.kind ≠ .inAttribute ∧
      ∃ front colon back, code (lex text defines).tokens = front ++ colon :: r.token :: back ∧
        colon.isPunct ":" = true) ∧
    ∀ (env : Environment), ∀ u ∈ env.uses (Analysis.ofText path text defines),
      (∀ v ∈ env.uses (Analysis.ofText path text defines), v.place.range = u.place.range → v.symbol = u.symbol) ∧
      (env.uses (Analysis.ofText path text defines)).filter (·.place.range = u.place.range) =
        if (Analysis.ofText path text defines).annotates u.place.range then
          [⟨u.symbol, u.place, .use⟩, ⟨u.symbol, u.place, .inType⟩]
        else [u] := by
  refine ⟨fun t member named => recorded_of_identifier path member named, fun m marked => identifier_of_mark marked,
    fun r referred => annotates_iff referred, ?_⟩
  intro env u reported
  have only := filter_uses_eq env reported
  refine ⟨?_, only⟩
  intro v other same
  have inside : v ∈ (env.uses (Analysis.ofText path text defines)).filter (·.place.range = u.place.range) :=
    List.mem_filter.mpr ⟨other, decide_eq_true same⟩
  rw [only] at inside
  split at inside
  · rcases List.mem_cons.mp inside with rfl | last
    · rfl
    · rw [List.mem_singleton.mp last]
  · rw [List.mem_singleton.mp inside]

end CrossRef.Check

namespace CrossRef.Sample
open Check Syntax

/-! A type that annotates a parameter, and a name behind a qualifier. -/

def typed : Document := .ofText ⟨"Forms", .ofText "forms.ml"⟩ "type T = T\nlet f (x: T) = M.x"

def forms : Project := .ofDocuments "Forms" ⟨[], []⟩ [typed]

def typeName : Token := ⟨.word, ⟨21, 1⟩, 1, 10, "T"⟩

private theorem typeName_resolved : ∃ b, (.reference ⟨typeName, .inType⟩, some b) ∈
    (Environment.ofOptions (forms.options [])).resolutions (forms.analysis typed) := by
  obtain ⟨first, second, third, marks, found⟩ : ∃ first second third, (forms.analysis typed).marks =
      [.binding first, .reference ⟨⟨.word, ⟨9, 1⟩, 0, 9, "T"⟩, .use⟩, .binding second, .binding third,
        .reference ⟨typeName, .inType⟩, .reference ⟨⟨.word, ⟨28, 1⟩, 1, 17, "x"⟩, .use⟩] ∧
      (Environment.candidates (forms.options []) typed.path [third, second, first] 21).find?
        (·.symbol.name = Reference.name ⟨typeName, .inType⟩) = some first :=
    ⟨_, _, _, rfl, rfl⟩
  have stands := Environment.resolve?_eq_find? (forms.options []) typed.path [third, second, first]
    ⟨typeName, .inType⟩
  rw [show Reference.offset ⟨typeName, .inType⟩ = 21 from rfl, found] at stands
  refine ⟨first, ?_⟩
  rw [Environment.resolutions, marks, ← stands]
  -- The annotation is the fifth of the marks.
  iterate 4 apply List.mem_cons_of_mem
  exact List.mem_cons_self ..

theorem typeName_reported_twice : ∃ u ∈ (Environment.ofOptions (forms.options [])).uses (forms.analysis typed),
    u.place.range = typeName.range ∧
      ((Environment.ofOptions (forms.options [])).uses (forms.analysis typed)).filter
          (·.place.range = u.place.range) = [⟨u.symbol, u.place, .use⟩, ⟨u.symbol, u.place, .inType⟩] ∧
      Recorded (lex typed.text []).tokens (forms.analysis typed) typeName := by
  obtain ⟨b, resolved⟩ := typeName_resolved
  obtain ⟨u, reported, -, place⟩ := Environment.exists_use resolved
  obtain ⟨recorded, -, -, once⟩ := identifiers_classified_once typed.path typed.text []
  have range : u.place.range = typeName.range := by rw [place]; rfl
  have annotates : (forms.analysis typed).annotates typeName.range = true := rfl
  refine ⟨u, reported, range, ?_, recorded typeName (by decide) rfl⟩
  have twice := (once (Environment.ofOptions (forms.options [])) u reported).2
  rw [range] at twice ⊢
  rw [show Analysis.ofText typed.path typed.text [] = forms.analysis typed from rfl, annotates] at twice
  exact twice

end CrossRef.Sample
