import CrossRef.Toml.Moment
import CrossRef.Toml.Tree

/-! Reading a TOML document. Its lines are headers and entries; together they give one table. -/

namespace CrossRef.Toml

/-- Reads a word. -/
def word? (word : List Char) (value : Value) (cs : List Char) : Option (Value × List Char) :=
  if word.isPrefixOf cs then some (value, cs.drop word.length) else none

/-- Reads a value that holds no others. -/
def scalar? (cs : List Char) : Option (Value × List Char) :=
  match cs with
  | '\x22' :: _ => (string? '\x22' cs).map fun (s, rest) => (.string s, rest)
  | '\x27' :: _ => (string? '\x27' cs).map fun (s, rest) => (.string s, rest)
  | 't' :: _ => word? ['t', 'r', 'u', 'e'] (.boolean true) cs
  | 'f' :: _ => word? ['f', 'a', 'l', 's', 'e'] (.boolean false) cs
  | _ => ((moment? cs).map fun (text, rest) => (.moment text, rest)) <|> float? cs <|> special? cs <|> integer? cs

mutual

/-- Reads a value at a depth of nesting. -/
def value? : (fuel depth : Nat) → List Char → Option (Value × List Char)
  | 0, _, _ => none
  | fuel + 1, depth, cs =>
    match cs with
    | '[' :: rest =>
      if depth + 1 < depthBound then
        (items? fuel (depth + 1) (skipLines false rest)).map fun (items, rest) => (.array items, rest)
      else
        none
    | '\x7b' :: rest =>
      if depth + 1 < depthBound then
        match skipBlanks rest with
        | '\x7d' :: rest => some (.table [], rest)
        | rest => (entries? fuel (depth + 1) [] rest).map fun (tree, rest) => (.table (Tree.table tree), rest)
      else
        none
    | _ => scalar? cs

/-- Reads the items of an array and the bracket that closes it. A comma may follow the last item. -/
def items? : (fuel depth : Nat) → List Char → Option (List Value × List Char)
  | 0, _, _ => none
  | fuel + 1, depth, cs =>
    match cs with
    | ']' :: rest => some ([], rest)
    | _ => do
      let (item, rest) ← value? fuel depth cs
      match skipLines false rest with
      | ']' :: rest => some ([item], rest)
      | ',' :: rest =>
        (items? fuel depth (skipLines false rest)).map fun (items, rest) => (item :: items, rest)
      | _ => none

/-- Reads the entries of a table on one line and the brace that closes it. -/
def entries? : (fuel depth : Nat) → Tree → List Char → Option (Tree × List Char)
  | 0, _, _, _ => none
  | fuel + 1, depth, tree, cs => do
    let (keys, rest) ← keyPath? cs
    match rest with
    | '=' :: rest =>
      let (value, rest) ← value? fuel depth (skipBlanks rest)
      let tree ← tree.assign keys value
      match skipBlanks rest with
      | '\x7d' :: rest => some (tree, rest)
      | ',' :: rest => entries? fuel depth tree rest
      | _ => none
    | _ => none

end

/-- What a line of a document says. -/
inductive Statement where
  | table (keys : List String)
  | item (keys : List String)
  | entry (keys : List String) (value : Value)
deriving Inhabited

/-- Reads the rest of a header behind its opening brackets. -/
def header? (closing : List Char) (cs : List Char) : Option (List String × List Char) := do
  let (keys, rest) ← keyPath? cs
  if closing.isPrefixOf rest then (nextLine? (rest.drop closing.length)).map (keys, ·) else none

/-- Reads a line that is not empty. A value on it takes at most as many steps as the fuel. -/
def statement? (fuel : Nat) (cs : List Char) : Option (Statement × List Char) :=
  match cs with
  | '[' :: '[' :: rest => (header? [']', ']'] rest).map fun (keys, rest) => (.item keys, rest)
  | '[' :: rest => (header? [']'] rest).map fun (keys, rest) => (.table keys, rest)
  | _ => do
    let (keys, rest) ← keyPath? cs
    match rest with
    | '=' :: rest =>
      let (value, rest) ← value? fuel 0 (skipBlanks rest)
      let rest ← nextLine? rest
      some (.entry keys value, rest)
    | _ => none

/-- Reads the lines of a document, at most as many as the fuel. -/
def statements? (valueFuel : Nat) : (fuel : Nat) → List Char → Option (List Statement)
  | 0, _ => none
  | fuel + 1, cs =>
    match skipBlanks cs with
    | [] => some []
    | '#' :: rest => (nextLine? ('#' :: rest)).bind (statements? valueFuel fuel)
    | '\n' :: rest => statements? valueFuel fuel rest
    | '\r' :: '\n' :: rest => statements? valueFuel fuel rest
    | cs => do
      let (statement, rest) ← statement? valueFuel cs
      (statements? valueFuel fuel rest).map (statement :: ·)

/-- A tree with the header that entries belong to. -/
structure Reading where
  tree : Tree
  header : List String

def Reading.add (reading : Reading) : Statement → Option Reading
  | .table keys => (reading.tree.openTable keys).map (⟨·, keys⟩)
  | .item keys => (reading.tree.openItem keys).map (⟨·, keys⟩)
  | .entry keys value =>
    (reading.tree.within false (fun _ inner => inner.assign keys value) reading.header false).map
      (⟨·, reading.header⟩)

/-- Drops a byte order mark. -/
def withoutMark (cs : List Char) : List Char :=
  if cs.head? = some '\uFEFF' then cs.tail else cs

/-- Reads a document. -/
def read? (text : String) : Option Table := do
  let cs := withoutMark text.toList
  -- A line has at least one character, and every bracket, brace and comma takes at most two steps.
  let statements ← statements? (2 * cs.length + 1) (cs.length + 1) cs
  let reading ← statements.foldlM Reading.add ⟨[], []⟩
  some (Tree.table reading.tree)

end CrossRef.Toml
