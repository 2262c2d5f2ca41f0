import CrossRef.Text.Lowercase

/-! The ways in which the occurrences of a name can be replaced, and the names that they go by. -/

namespace CrossRef.Rename

inductive Strategy where
  /-- All occurrences are found in one text and replaced together. -/
  | batched
  /-- Each occurrence is found in the text that the ones before it have left. -/
  | sequential
deriving DecidableEq, Repr, Inhabited

/-- A name, in lowercase, that no strategy has. -/
structure UnknownStrategy where
  name : String
deriving DecidableEq, Repr

def UnknownStrategy.message (e : UnknownStrategy) : String :=
  "unknown rename strategy '" ++ e.name ++ "'"

namespace Strategy

def name : Strategy → String
  | batched => "batched"
  | sequential => "sequential"

def ofName? (name : String) : Option Strategy :=
  [batched, sequential].find? (·.name == name)

/-- Reads a name in any mixture of cases. -/
def parse (name : String) : Except UnknownStrategy Strategy :=
  let name := Text.lowercase name
  match ofName? name with
  | some strategy => .ok strategy
  | none => .error ⟨name⟩

theorem ofName?_name (s : Strategy) : ofName? s.name = some s := by
  cases s <;> decide

end Strategy

end CrossRef.Rename
