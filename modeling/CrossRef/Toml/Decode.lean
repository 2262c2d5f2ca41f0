import CrossRef.Toml.Value

/-! Taking typed data out of TOML values. A record may be written as a table, or as an array with its fields
in order; keys that it does not know are passed over. -/

namespace CrossRef.Toml

/-- What a reader of values lets pass. -/
structure Leniency where
  /-- Dates and times are taken for texts. -/
  momentsAsText : Bool
  /-- A record written as an array may have more items than fields. -/
  surplusItems : Bool

namespace Value

def text? (lenient : Leniency) : Value → Option String
  | .string s => some s
  | .moment s => if lenient.momentsAsText then some s else none
  | _ => none

def array? : Value → Option (List Value)
  | .array items => some items
  | _ => none

def texts? (lenient : Leniency) (v : Value) : Option (List String) := do
  (← v.array?).mapM (text? lenient)

/-- A number from zero up to a bound. -/
def natural? (bound : Nat) : Value → Option Nat
  | .integer i => if 0 ≤ i ∧ i < bound then some i.toNat else none
  | _ => none

def isHollow : Value → Bool
  | .table [] => true
  | .array [] => true
  | _ => false

/-- One of several words. It may also be the only key of a table, with nothing at it. -/
def word? (ofName : String → Option α) : Value → Option α
  | .string name => ofName name
  | .table [(name, inner)] => if inner.isHollow then ofName name else none
  | _ => none

/-- The fields of a record by name. -/
def fields? (lenient : Leniency) (names : List String) : Value → Option (String → Option Value)
  | .table entries => some (Table.get? entries)
  | .array items =>
    if items.length ≤ names.length ∨ lenient.surplusItems then
      some fun name => (names.zip items).lookup name
    else
      none
  | _ => none

end Value

/-- Reads a field that may be missing. -/
def orElse (fallback : α) (decode : Value → Option α) : Option Value → Option α
  | none => some fallback
  | some value => decode value

end CrossRef.Toml
