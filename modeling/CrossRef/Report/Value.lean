/-! What a command reports is a nested value. It can be written as indented JSON, or as plain lines of
`key: value`. -/

namespace CrossRef.Report

inductive Value where
  | null
  | flag (b : Bool)
  | number (n : Nat)
  | text (s : String)
  | list (items : List Value)
  | record (fields : List (String × Value))
deriving Repr, Inhabited

namespace Value

/-- A record with its fields in the order of their keys. -/
def ofFields (fields : List (String × Value)) : Value :=
  record (fields.mergeSort fun a b => (compare a.1 b.1).isLE)

def texts (items : List String) : Value :=
  list (items.map text)

/-- The record with one more field. What is not a record stays as it is. -/
def insert (v : Value) (key : String) (field : Value) : Value :=
  match v with
  | record fields => ofFields ((key, field) :: fields)
  | other => other

def isNull : Value → Bool
  | null => true
  | _ => false

end Value

/-- The two low hexadecimal digits of a number. -/
def hexPair (n : Nat) : List Char :=
  [Nat.digitChar (n / 16 % 16), Nat.digitChar (n % 16)]

/-- How a character is written inside quotes. -/
def escaped (c : Char) : List Char :=
  if c = '\x22' then ['\x5c', '\x22']
  else if c = '\x5c' then ['\x5c', '\x5c']
  else if c = '\x08' then ['\x5c', 'b']
  else if c = '\x0c' then ['\x5c', 'f']
  else if c = '\n' then ['\x5c', 'n']
  else if c = '\r' then ['\x5c', 'r']
  else if c = '\t' then ['\x5c', 't']
  else if c.toNat < 0x20 then ['\x5c', 'u', '0', '0'] ++ hexPair c.toNat
  else [c]

def quoted (s : String) : String :=
  "\x22" ++ String.ofList (s.toList.flatMap escaped) ++ "\x22"

/-- Starts a line at a depth of nesting, two blanks for each level. -/
def newLine (depth : Nat) : String :=
  "\n" ++ String.ofList (List.replicate (2 * depth) ' ')

/-- Puts brackets around items, each of them on a line of its own; nothing stands between the brackets
if there are no items. -/
def bracketed (opening closing : String) (depth : Nat) (items : List String) : String :=
  if items.isEmpty then opening ++ closing
  else
    opening ++ newLine (depth + 1) ++ String.intercalate ("," ++ newLine (depth + 1)) items ++
      newLine depth ++ closing

mutual

/-- The value as indented JSON. -/
def Value.json (depth : Nat) : Value → String
  | .null => "null"
  | .flag b => if b then "true" else "false"
  | .number n => toString n
  | .text s => quoted s
  | .list items => bracketed "[" "]" depth (jsonItems (depth + 1) items)
  | .record fields => bracketed "\x7b" "\x7d" depth (jsonFields (depth + 1) fields)

def jsonItems (depth : Nat) : List Value → List String
  | [] => []
  | item :: rest => item.json depth :: jsonItems depth rest

def jsonFields (depth : Nat) : List (String × Value) → List String
  | [] => []
  | (key, value) :: rest => (quoted key ++ ": " ++ value.json depth) :: jsonFields depth rest

end

mutual

/-- The value on one line. Fields without a value are left out. -/
def Value.oneLine : Value → String
  | .null => "null"
  | .flag b => if b then "true" else "false"
  | .number n => toString n
  | .text s => s
  | .list items => String.intercalate ", " (lineItems items)
  | .record fields => String.intercalate " " (lineFields fields)

def lineItems : List Value → List String
  | [] => []
  | item :: rest => item.oneLine :: lineItems rest

def lineFields : List (String × Value) → List String
  | [] => []
  | (_, .null) :: rest => lineFields rest
  | (key, value) :: rest => (key ++ "=" ++ value.oneLine) :: lineFields rest

end

/-- The lines of one field: a list has its items on lines of their own. -/
def plainField : String × Value → String
  | (_, .null) => ""
  | (key, .list items) =>
    key ++ ":\n" ++ String.join (items.map fun item => "  " ++ item.oneLine ++ "\n")
  | (key, value) => key ++ ": " ++ value.oneLine ++ "\n"

/-- The value as plain lines. -/
def Value.plain : Value → String
  | .record fields => String.join (fields.map plainField)
  | other => other.oneLine ++ "\n"

inductive Format where
  | json
  | plain
deriving DecidableEq, Repr, Inhabited

/-- Every name but `text`, in any case, means JSON. -/
def Format.ofName (name : String) : Format :=
  if name.map Char.toLower = "text" then .plain else .json

/-- A value as it is printed. -/
def Value.render (format : Format) (value : Value) : String :=
  match format with
  | .json => value.json 0 ++ "\n"
  | .plain => value.plain

end CrossRef.Report
