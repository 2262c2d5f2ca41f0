import CrossRef.Toml.Value

/-! Laying one table over another, leaf by leaf. Tables on both sides are merged key by key at every depth, so what is
found at a path of keys depends only on what the two tables have along that path. -/

namespace CrossRef.Toml

namespace Value

def isTable : Value → Bool
  | .table _ => true
  | _ => false

/-- The value that a path of keys leads to, through one table for each key. -/
def at? : Value → List String → Option Value
  | value, [] => some value
  | .table entries, key :: path => (Table.get? entries key).bind (·.at? path)
  | _, _ :: _ => none

/-- A value that is no table, at the end of a path. -/
def HasLeaf (value : Value) (path : List String) (leaf : Value) : Prop :=
  value.at? path = some leaf ∧ leaf.isTable = false

/-- What lies below is not hidden at a path: nothing is there, and only tables are on the way. -/
def LetsThrough (value : Value) (path : List String) : Prop :=
  value.at? path = none ∧
    ∀ front, front <+: path → front ≠ path → ∀ passed, value.at? front = some passed → passed.isTable = true

variable {entries : Table} {value leaf : Value} {key : String} {path : List String}

theorem at?_table_cons : (table entries).at? (key :: path) = (Table.get? entries key).bind (·.at? path) :=
  rfl

private theorem at?_cons_of_leaf (plain : value.isTable = false) : value.at? (key :: path) = none := by
  cases value <;> first | rfl | cases plain

theorem not_hasLeaf_nil : ¬(table entries).HasLeaf [] leaf := by
  rintro ⟨found, plain⟩
  cases found
  cases plain

theorem hasLeaf_cons :
    (table entries).HasLeaf (key :: path) leaf ↔ ∃ inner, Table.get? entries key = some inner ∧ inner.HasLeaf path leaf := by
  simp only [HasLeaf, at?_table_cons, Option.bind_eq_some_iff]
  constructor
  · rintro ⟨⟨inner, here, found⟩, plain⟩
    exact ⟨inner, here, found, plain⟩
  · rintro ⟨inner, here, found, plain⟩
    exact ⟨⟨inner, here, found⟩, plain⟩

private theorem letsThrough_of_missing (missing : Table.get? entries key = none) :
    (table entries).LetsThrough (key :: path) := by
  constructor
  · rw [at?_table_cons, missing, Option.bind_none]
  · intro front starts proper passed found
    cases front with
    | nil =>
      cases found
      rfl
    | cons first front =>
      obtain ⟨rfl, -⟩ := List.cons_prefix_cons.mp starts
      rw [at?_table_cons, missing] at found
      cases found

theorem letsThrough_cons {inner : Value} (here : Table.get? entries key = some inner) :
    (table entries).LetsThrough (key :: path) ↔ inner.isTable = true ∧ inner.LetsThrough path := by
  constructor
  · intro ⟨nothing, through⟩
    rw [at?_table_cons, here, Option.bind_some] at nothing
    have deeper : ∀ front, front <+: path → front ≠ path → ∀ passed, inner.at? front = some passed →
        passed.isTable = true := by
      intro front starts proper passed found
      refine through (key :: front) (List.cons_prefix_cons.mpr ⟨rfl, starts⟩) (by simpa using proper) passed ?_
      rw [at?_table_cons, here, Option.bind_some, found]
    refine ⟨deeper [] List.nil_prefix ?_ inner (by cases inner <;> rfl), nothing, deeper⟩
    rintro rfl
    cases inner <;> cases nothing
  · intro ⟨opened, nothing, through⟩
    constructor
    · rw [at?_table_cons, here, Option.bind_some, nothing]
    · intro front starts proper passed found
      cases front with
      | nil =>
        cases found
        rfl
      | cons first front =>
        obtain ⟨rfl, inside⟩ := List.cons_prefix_cons.mp starts
        rw [at?_table_cons, here, Option.bind_some] at found
        exact through front inside (by simpa using proper) passed found

/-- One value over another is a matter of the leaves, if it is one for the tables among them. -/
theorem hasLeaf_over (below : Option Value) (upper : Value)
    (merged : ∀ base overlay : Table, (table (Table.merge base overlay)).HasLeaf path leaf ↔
      (table overlay).HasLeaf path leaf ∨ (table base).HasLeaf path leaf ∧ (table overlay).LetsThrough path) :
    (upper.over below).HasLeaf path leaf ↔ upper.HasLeaf path leaf ∨
      (∃ lower, below = some lower ∧ lower.HasLeaf path leaf) ∧ upper.isTable = true ∧ upper.LetsThrough path := by
  cases plain : upper.isTable with
  | false =>
    have hides : upper.over below = upper := by
      cases upper <;> first | rfl | cases plain
    simp [hides]
  | true =>
    obtain ⟨overlay, rfl⟩ : ∃ overlay, upper = table overlay := by
      cases upper <;> first | exact ⟨_, rfl⟩ | cases plain
    cases below with
    | none => simp [Value.over]
    | some lower =>
      cases open_ : lower.isTable with
      | true =>
        obtain ⟨base, rfl⟩ : ∃ base, lower = table base := by
          cases lower <;> first | exact ⟨_, rfl⟩ | cases open_
        simpa [Value.over] using merged base overlay
      | false =>
        have hides : (table overlay).over (some lower) = table overlay := by
          cases lower <;> first | rfl | cases open_
        -- A plain value has a leaf at the empty path only, where the upper table is.
        have hidden : ¬(lower.HasLeaf path leaf ∧ (table overlay).LetsThrough path) := by
          rintro ⟨⟨found, -⟩, nothing, -⟩
          cases path with
          | nil => cases nothing
          | cons key path =>
            rw [at?_cons_of_leaf open_] at found
            cases found
        rw [hides]
        simp only [Option.some.injEq, exists_eq_left', true_and]
        exact (or_iff_left hidden).symm

end Value

/-- Laying a table over another one is decided at each leaf alone: the leaves of the result are all leaves of the upper
table, and those of the lower one that the upper table leaves alone, having no value at their path and nothing but tables
on the way there. -/
theorem merge_leaves (base overlay : Table) (path : List String) (leaf : Value) :
    (Value.table (Table.merge base overlay)).HasLeaf path leaf ↔
      (Value.table overlay).HasLeaf path leaf ∨
        (Value.table base).HasLeaf path leaf ∧ (Value.table overlay).LetsThrough path := by
  induction path generalizing base overlay with
  | nil => simp [Value.not_hasLeaf_nil]
  | cons key path ih =>
    rw [Value.hasLeaf_cons, Value.hasLeaf_cons, Value.hasLeaf_cons]
    simp only [Table.get?_merge]
    cases upper : Table.get? overlay key with
    | none => simp [Value.letsThrough_of_missing upper]
    | some value =>
      simp only [Option.some.injEq, exists_eq_left', Value.letsThrough_cons upper]
      exact Value.hasLeaf_over (Table.get? base key) value ih

end CrossRef.Toml
