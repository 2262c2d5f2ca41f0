import CrossRef.Check.Checker
import CrossRef.Proofs.FileMarks

/-! What each mark of a file stands for. The bindings that a reference could stand for form one list, the
nearest first, and the reference stands for the first of them that has its name. The uses that a check
reports are read off the marks with what they stand for. -/

namespace CrossRef.Check.Environment

/-- The bindings that a reference at an offset of a file could stand for, behind the bindings before it in
the file. These come first, then what the other files of the project export, then the projects referred to. -/
def candidates (options : Options) (path : Path) (before : List Binding) (offset : Nat) : List Binding :=
  before.filter (·.covers offset) ++
    ((siblingExports options).filter fun e => ¬e.path.Same path).map (·.binding) ++
    (referencedExports options).map (·.binding)

theorem resolve?_eq_find? (options : Options) (path : Path) (before : List Binding) (r : Reference) :
    (ofOptions options).resolve? path (.ofList before) r =
      (candidates options path before r.offset).find? (·.symbol.name = r.name) := by
  simp only [resolve?, candidates, OwnBindings.nearest?_ofList, siblingBinding?_ofOptions,
    referencedBinding?_ofOptions, List.find?_append, List.find?_filter, List.find?_map, Option.orElse_eq_orElse,
    Function.comp_def, Option.orElse_eq_or, Option.or_assoc]
  congr 2
  · funext b
    simp [Bool.and_comm]
  · congr 2
    funext e
    simp [Bool.and_comm]

/-- Each mark with the binding that it stands for, behind the bindings that have been met. A binding stands
for itself. -/
def resolutionsFrom (env : Environment) (path : Path) : OwnBindings → List Mark → List (Mark × Option Binding)
  | _, [] => []
  | own, .binding b :: rest => (.binding b, some b) :: resolutionsFrom env path (own.add b) rest
  | own, .reference r :: rest => (.reference r, env.resolve? path own r) :: resolutionsFrom env path own rest

def resolutions (env : Environment) (file : Analysis) : List (Mark × Option Binding) :=
  env.resolutionsFrom file.path .empty file.marks

theorem map_fst_resolutionsFrom (env : Environment) (path : Path) (own : OwnBindings) (marks : List Mark) :
    (env.resolutionsFrom path own marks).map (·.1) = marks := by
  induction marks generalizing own with
  | nil => rfl
  | cons mark rest ih => cases mark <;> simp [resolutionsFrom, ih]

theorem map_fst_resolutions (env : Environment) (file : Analysis) : (env.resolutions file).map (·.1) = file.marks :=
  env.map_fst_resolutionsFrom ..

theorem nodup_tokens (env : Environment) (path : Path) (text : String) (defines : List String) :
    ((env.resolutions (Analysis.ofText path text defines)).map (·.1.token)).Nodup := by
  have distinct := nodup_marks path text defines
  rwa [← env.map_fst_resolutions, List.map_map] at distinct

def usesOfMark (path : Path) : Mark × Option Binding → List Use
  | (.binding b, _) => [⟨b.symbol, ⟨path, b.token.range⟩, .definition⟩]
  | (.reference r, found) => usesAt path r found

private theorem usesFrom_eq (env : Environment) (path : Path) (own : OwnBindings) (marks : List Mark) :
    env.usesFrom path own marks = (env.resolutionsFrom path own marks).flatMap (usesOfMark path) := by
  induction marks generalizing own with
  | nil => rfl
  | cons mark rest ih =>
    cases mark with
    | binding b => simp [usesFrom, resolutionsFrom, usesOfMark, ih]
    | reference r => simp [usesFrom, resolutionsFrom, usesOfMark, ih]

/-- A check reports nothing but the marks and what they stand for. -/
theorem uses_eq (env : Environment) (file : Analysis) :
    env.uses file = (env.resolutions file).flatMap (usesOfMark file.path) :=
  env.usesFrom_eq file.path .empty file.marks

theorem mem_exportsOf {visible : Access → Bool} {files : List Analysis} {e : Export} :
    e ∈ exportsOf visible files ↔ ∃ file ∈ files, e.path = file.path ∧ e.binding ∈ file.exports visible := by
  simp only [exportsOf, List.mem_flatMap, List.mem_map]
  constructor
  · rintro ⟨file, member, b, inside, rfl⟩
    exact ⟨file, member, rfl, inside⟩
  · rintro ⟨file, member, same, inside⟩
    exact ⟨file, member, e.binding, inside, by rw [← same]⟩

/-- A binding of another file that a file can see. -/
inductive Sees (options : Options) (path : Path) (b : Binding) : Prop where
  | sibling (file : Analysis) (member : file ∈ analyses options) (other : ¬file.path.Same path)
      (inside : b ∈ file.exports (· != .ownFile))
  | referenced (file : Analysis) (member : file ∈ options.references.flatMap analyses)
      (inside : b ∈ file.exports (· == .everywhere))

theorem mem_candidates {options : Options} {path : Path} {before : List Binding} {offset : Nat} {b : Binding}
    (member : b ∈ candidates options path before offset) : b ∈ before ∨ Sees options path b := by
  simp only [candidates, List.mem_append, List.mem_map, List.mem_filter, decide_eq_true_eq] at member
  rcases member with (⟨own, -⟩ | ⟨e, ⟨exported, other⟩, rfl⟩) | ⟨e, exported, rfl⟩
  · exact .inl own
  · obtain ⟨file, known, same, inside⟩ := mem_exportsOf.mp exported
    exact .inr (.sibling file known (same ▸ other) inside)
  · obtain ⟨file, known, -, inside⟩ := mem_exportsOf.mp exported
    exact .inr (.referenced file known inside)

theorem Sees.isPrivateToFile {options : Options} {path : Path} {b : Binding} (seen : Sees options path b) :
    b.symbol.isPrivateToFile = false := by
  cases seen with
  | sibling file _ _ exported | referenced file _ exported =>
    obtain ⟨-, visible⟩ := List.mem_filter.mp exported
    simp_all [Symbol.isPrivateToFile]

theorem mem_resolutionsFrom {options : Options} {path : Path} {before : List Binding} {marks : List Mark}
    {m : Mark} {b : Binding}
    (member : (m, some b) ∈ (ofOptions options).resolutionsFrom path (.ofList before) marks) :
    b ∈ before ∨ .binding b ∈ marks ∨ Sees options path b := by
  induction marks generalizing before with
  | nil => cases member
  | cons mark rest ih =>
    cases mark with
    | binding c =>
      rcases List.mem_cons.mp member with here | later
      · cases here
        exact .inr (.inl (List.mem_cons_self ..))
      · rw [← OwnBindings.ofList_cons] at later
        rcases ih later with own | own | seen
        · rcases List.mem_cons.mp own with rfl | own
          · exact .inr (.inl (List.mem_cons_self ..))
          · exact .inl own
        · exact .inr (.inl (List.mem_cons_of_mem _ own))
        · exact .inr (.inr seen)
    | reference r =>
      rcases List.mem_cons.mp member with here | later
      · obtain ⟨-, found⟩ := Prod.mk.inj here
        rw [resolve?_eq_find?] at found
        rcases mem_candidates (List.mem_of_find?_eq_some found.symm) with own | seen
        · exact .inl own
        · exact .inr (.inr seen)
      · rcases ih later with own | own | seen
        · exact .inl own
        · exact .inr (.inl (List.mem_cons_of_mem _ own))
        · exact .inr (.inr seen)

theorem mem_resolutions {options : Options} {file : Analysis} {m : Mark} {b : Binding}
    (member : (m, some b) ∈ (ofOptions options).resolutions file) :
    b ∈ file.bindings ∨ Sees options file.path b := by
  have outside : OwnBindings.ofList [] = .empty := rfl
  rw [resolutions, ← outside] at member
  rcases mem_resolutionsFrom member with none | own | seen
  · cases none
  · exact .inl (mem_bindings.mpr own)
  · exact .inr seen

theorem own_of_private {options : Options} {file : Analysis} {m : Mark} {b : Binding}
    (hidden : b.symbol.isPrivateToFile = true) (member : (m, some b) ∈ (ofOptions options).resolutions file) :
    b ∈ file.bindings := by
  rcases mem_resolutions member with own | seen
  · exact own
  · rw [seen.isPrivateToFile] at hidden
    cases hidden

theorem find?_candidates_cases {options : Options} {path : Path} {before : List Binding} {offset : Nat}
    {p : Binding → Bool} {b : Binding} (found : (candidates options path before offset).find? p = some b) :
    (before.filter (·.covers offset)).find? p = some b ∨
      (before.filter (·.covers offset)).find? p = none ∧ Sees options path b := by
  rw [candidates, List.append_assoc, List.find?_append] at found
  rcases Option.or_eq_some_iff.mp found with own | ⟨none, outside⟩
  · exact .inl own
  · have member : b ∈ candidates options path [] offset := by
      rw [candidates, List.filter_nil, List.nil_append]
      exact List.mem_of_find?_eq_some outside
    exact .inr ⟨none, (mem_candidates member).resolve_left List.not_mem_nil⟩

private theorem find?_candidates_of_private {options : Options} {path : Path} {before : List Binding} {offset : Nat}
    {p : Binding → Bool} {b : Binding} (hidden : b.symbol.isPrivateToFile = true)
    (found : (candidates options path before offset).find? p = some b) :
    (before.filter (·.covers offset)).find? p = some b := by
  rcases find?_candidates_cases found with own | ⟨-, seen⟩
  · exact own
  · rw [seen.isPrivateToFile] at hidden
    cases hidden

/-- A name that only its own file can see means the same whatever else there is to see. -/
theorem resolutionsFrom_of_private {options other : Options} {path : Path} {before : List Binding} {marks : List Mark}
    {m : Mark} {b : Binding} (hidden : b.symbol.isPrivateToFile = true)
    (member : (m, some b) ∈ (ofOptions options).resolutionsFrom path (.ofList before) marks) :
    (m, some b) ∈ (ofOptions other).resolutionsFrom path (.ofList before) marks := by
  induction marks generalizing before with
  | nil => cases member
  | cons mark rest ih =>
    cases mark with
    | binding c =>
      rcases List.mem_cons.mp member with here | later
      · exact List.mem_cons.mpr (.inl here)
      · rw [← OwnBindings.ofList_cons] at later
        apply List.mem_cons_of_mem
        rw [← OwnBindings.ofList_cons]
        exact ih later
    | reference r =>
      rcases List.mem_cons.mp member with here | later
      · obtain ⟨rfl, found⟩ := Prod.mk.inj here
        have own := find?_candidates_of_private hidden (resolve?_eq_find? .. ▸ found.symm)
        have same : (ofOptions other).resolve? path (.ofList before) r = some b := by
          rw [resolve?_eq_find?, candidates, List.append_assoc, List.find?_append, own]
          rfl
        rw [← same]
        exact List.mem_cons_self ..
      · exact List.mem_cons_of_mem _ (ih later)

theorem resolutions_of_private {options other : Options} {file : Analysis} {m : Mark} {b : Binding}
    (hidden : b.symbol.isPrivateToFile = true) (member : (m, some b) ∈ (ofOptions options).resolutions file) :
    (m, some b) ∈ (ofOptions other).resolutions file := by
  have outside : OwnBindings.ofList [] = .empty := rfl
  rw [resolutions, ← outside] at member ⊢
  exact resolutionsFrom_of_private hidden member

theorem resolutionsFrom_binding {env : Environment} {path : Path} {own : OwnBindings} {marks : List Mark}
    {b : Binding} {found : Option Binding} (member : (.binding b, found) ∈ env.resolutionsFrom path own marks) :
    found = some b := by
  induction marks generalizing own with
  | nil => cases member
  | cons mark rest ih =>
    cases mark with
    | binding c =>
      rcases List.mem_cons.mp member with here | later
      · cases here
        rfl
      · exact ih later
    | reference r =>
      rcases List.mem_cons.mp member with here | later
      · cases here
      · exact ih later

theorem resolution_of_binding (env : Environment) {file : Analysis} {b : Binding} (marked : .binding b ∈ file.marks) :
    (.binding b, some b) ∈ env.resolutions file := by
  rw [← env.map_fst_resolutions] at marked
  obtain ⟨⟨_, found⟩, member, rfl⟩ := List.mem_map.mp marked
  obtain rfl := resolutionsFrom_binding member
  exact member

private theorem name_of_resolutionsFrom {options : Options} {path : Path} {before : List Binding} {marks : List Mark}
    {m : Mark} {b : Binding} (own : ∀ c, .binding c ∈ marks → c.symbol.name = c.token.name)
    (member : (m, some b) ∈ (ofOptions options).resolutionsFrom path (.ofList before) marks) :
    m ∈ marks ∧ b.symbol.name = m.token.name := by
  induction marks generalizing before with
  | nil => cases member
  | cons mark rest ih =>
    have inner : ∀ c, .binding c ∈ rest → c.symbol.name = c.token.name :=
      fun c inside => own c (List.mem_cons_of_mem _ inside)
    cases mark with
    | binding c =>
      rcases List.mem_cons.mp member with here | later
      · cases here
        exact ⟨List.mem_cons_self .., own b (List.mem_cons_self ..)⟩
      · rw [← OwnBindings.ofList_cons] at later
        obtain ⟨inside, named⟩ := ih inner later
        exact ⟨List.mem_cons_of_mem _ inside, named⟩
    | reference r =>
      rcases List.mem_cons.mp member with here | later
      · obtain ⟨rfl, found⟩ := Prod.mk.inj here
        rw [resolve?_eq_find?] at found
        have named : b.symbol.name = r.name := by simpa using List.find?_some found.symm
        exact ⟨List.mem_cons_self .., named⟩
      · obtain ⟨inside, named⟩ := ih inner later
        exact ⟨List.mem_cons_of_mem _ inside, named⟩

theorem name_of_resolution {options : Options} {path : Path} {text : String} {defines : List String} {m : Mark}
    {b : Binding} (member : (m, some b) ∈ (ofOptions options).resolutions (Analysis.ofText path text defines)) :
    m ∈ (Analysis.ofText path text defines).marks ∧ b.symbol.name = m.token.name := by
  have outside : OwnBindings.ofList [] = .empty := rfl
  rw [resolutions, ← outside] at member
  exact name_of_resolutionsFrom (fun c bound => (symbol_of_binding (mem_bindings.mpr bound)).1) member

theorem mem_uses {env : Environment} {file : Analysis} {u : Use} (member : u ∈ env.uses file) :
    ∃ m b, (m, some b) ∈ env.resolutions file ∧ u.symbol = b.symbol ∧ u.place = ⟨file.path, m.token.range⟩ := by
  rw [uses_eq] at member
  obtain ⟨⟨m, found⟩, inside, reported⟩ := List.mem_flatMap.mp member
  cases m with
  | binding b =>
    cases resolutionsFrom_binding inside
    rw [usesOfMark, List.mem_singleton] at reported
    subst reported
    exact ⟨_, b, inside, rfl, rfl⟩
  | reference r =>
    cases found with
    | none => cases reported
    | some b =>
      refine ⟨_, b, inside, ?_⟩
      simp only [usesOfMark, usesAt] at reported
      split at reported <;> simp only [List.mem_cons, List.not_mem_nil, or_false] at reported
      · rcases reported with rfl | rfl <;> exact ⟨rfl, rfl⟩
      · subst reported
        exact ⟨rfl, rfl⟩

theorem exists_use {env : Environment} {file : Analysis} {m : Mark} {b : Binding}
    (member : (m, some b) ∈ env.resolutions file) :
    ∃ u ∈ env.uses file, u.symbol = b.symbol ∧ u.place = ⟨file.path, m.token.range⟩ := by
  suffices reported : ∃ u ∈ usesOfMark file.path (m, some b),
      u.symbol = b.symbol ∧ u.place = ⟨file.path, m.token.range⟩ by
    obtain ⟨u, inside, same⟩ := reported
    exact ⟨u, uses_eq env file ▸ List.mem_flatMap.mpr ⟨_, member, inside⟩, same⟩
  cases m with
  | binding c =>
    cases resolutionsFrom_binding member
    exact ⟨_, List.mem_singleton_self _, rfl, rfl⟩
  | reference r =>
    simp only [usesOfMark, usesAt]
    split
    · exact ⟨_, List.mem_cons_self .., rfl, rfl⟩
    · exact ⟨_, List.mem_singleton_self _, rfl, rfl⟩

theorem exists_reported {options : Options} {file : Analysis} (known : file ∈ analyses options) {m : Mark} {b : Binding}
    (member : (m, some b) ∈ (ofOptions options).resolutions file) :
    ∃ u ∈ usesOf b.symbol (checkProject options), u.symbol = b.symbol ∧ u.place = ⟨file.path, m.token.range⟩ := by
  obtain ⟨u, use, symbol, place⟩ := exists_use member
  exact ⟨u, List.mem_filter.mpr ⟨List.mem_flatMap.mpr ⟨file, known, use⟩, by simp [symbol]⟩, symbol, place⟩

end CrossRef.Check.Environment
