/-! The values of a TOML document, and laying one table over another. -/

namespace CrossRef.Toml

inductive Value where
  | string (s : String)
  | integer (i : Int)
  /-- A float as it is written. No setting is one, so its value is never needed. -/
  | float (text : String)
  | boolean (b : Bool)
  /-- A date, a time or both, in the standard spelling. -/
  | moment (text : String)
  | array (items : List Value)
  | table (entries : List (String × Value))
deriving Repr, Inhabited

abbrev Table := List (String × Value)

namespace Table

def get? (t : Table) (key : String) : Option Value :=
  match t with
  | [] => none
  | (k, v) :: rest => if k = key then some v else Table.get? rest key

/-- Replaces the value of a key, or adds the key at the end. -/
def put (t : Table) (key : String) (value : Value) : Table :=
  match t with
  | [] => [(key, value)]
  | (k, v) :: rest => if k = key then (key, value) :: rest else (k, v) :: Table.put rest key value

theorem get?_put (t : Table) (key : String) (value : Value) (other : String) :
    (t.put key value).get? other = if other = key then some value else t.get? other := by
  induction t with
  | nil => simp [put, get?, eq_comm]
  | cons first rest ih =>
    obtain ⟨k, v⟩ := first
    by_cases here : k = key
    · subst here
      by_cases same : other = k
      · simp [put, get?, same]
      · simp [put, get?, same, Ne.symm same]
    · by_cases same : other = k
      · subst same
        simp [put, get?, here]
      · simp [put, get?, here, Ne.symm same, ih]

end Table

mutual

/-- What is at a key when a value is laid over the one below it: two tables are merged, and anything else
hides what is below. -/
def Value.over (below : Option Value) : Value → Value
  | .table entries =>
    match below with
    | some (.table base) => .table (Table.merge base entries)
    | _ => .table entries
  | other => other

/-- Lays the second table over the first one. -/
def Table.merge (base : Table) : List (String × Value) → Table
  | [] => base
  | (key, value) :: rest => Table.put (Table.merge base rest) key (value.over (Table.get? base key))

end

/-- At each key the upper table decides, with the value of the lower one below its own. -/
theorem Table.get?_merge (base overlay : Table) (key : String) :
    Table.get? (Table.merge base overlay) key =
      match Table.get? overlay key with
      | some value => some (value.over (Table.get? base key))
      | none => Table.get? base key := by
  induction overlay with
  | nil => simp [Table.merge, Table.get?]
  | cons first rest ih =>
    obtain ⟨k, v⟩ := first
    by_cases here : k = key
    · subst here
      simp [Table.merge, Table.get?_put, Table.get?]
    · simp [Table.merge, Table.get?_put, Table.get?, here, Ne.symm here, ih]

end CrossRef.Toml
