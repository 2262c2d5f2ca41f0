import CrossRef.Toml.Value

/-! The tables of a TOML document while it is read. A table can be opened by a header, by a dotted key, or on
the way to a table inside it, and that decides whether it may still be added to. -/

namespace CrossRef.Toml

inductive Node where
  | leaf (value : Value)
  /-- A table is implicit as long as no header has named it, and dotted if a dotted key has opened it. -/
  | table (isImplicit isDotted : Bool) (entries : List (String × Node))
  /-- The tables of a repeated header, the last one first. -/
  | tables (items : List (List (String × Node)))
deriving Inhabited

/-- Entries by key. The last one to be added comes first. -/
abbrev Tree := List (String × Node)

namespace Tree

def get? (t : Tree) (key : String) : Option Node :=
  t.lookup key

/-- Adds a key that is not there. -/
def add (t : Tree) (key : String) (node : Node) : Tree :=
  (key, node) :: t

/-- Replaces what is at a key. -/
def put (t : Tree) (key : String) (node : Node) : Tree :=
  match t with
  | [] => [(key, node)]
  | (k, n) :: rest => if k = key then (key, node) :: rest else (k, n) :: Tree.put rest key node

/-- Changes the table at a path, and opens the tables on the way that are missing. Of a repeated table the
last one is meant. A dotted key cannot enter a table that a header has named. The change is told whether
its table was opened by a dotted key. -/
def within (byKey : Bool) (change : (isDotted : Bool) → Tree → Option Tree) :
    List String → (isDotted : Bool) → Tree → Option Tree
  | [], isDotted, tree => change isDotted tree
  | key :: path, _, tree =>
    match tree.get? key with
    | none => (within byKey change path byKey []).map fun inner => tree.add key (.table true byKey inner)
    | some (.leaf _) => none
    | some (.table isImplicit isDotted inner) =>
      if byKey && !isImplicit then none
      else
        (within byKey change path isDotted inner).map fun inner =>
          tree.put key (.table isImplicit isDotted inner)
    | some (.tables items) =>
      match items with
      | [] => none
      | last :: before =>
        (within byKey change path false last).map fun last => tree.put key (.tables (last :: before))

/-- Gives a value to a path of keys inside a table. A key has one value, and a table opened in another way
takes no dotted keys. -/
def assign (keys : List String) (value : Value) (tree : Tree) : Option Tree :=
  match keys.getLast? with
  | none => none
  | some key =>
    within true (fun isDotted inner =>
      if isDotted == keys.dropLast.isEmpty || (inner.get? key).isSome then none
      else some (inner.add key (.leaf value))) keys.dropLast false tree

/-- Opens the table that a header names. It must be new, or only have been passed through; then its place
is behind what is there. -/
def openTable (keys : List String) (tree : Tree) : Option Tree :=
  match keys.getLast? with
  | none => none
  | some key =>
    within false (fun _ inner =>
      match inner.get? key with
      | none => some (inner.add key (.table false false []))
      | some (.table true false entries) => some (Tree.add (inner.filter (·.1 ≠ key)) key (.table false false entries))
      | some _ => none) keys.dropLast false tree

/-- Opens one more table of a repeated header. -/
def openItem (keys : List String) (tree : Tree) : Option Tree :=
  match keys.getLast? with
  | none => none
  | some key =>
    within false (fun _ inner =>
      match inner.get? key with
      | none => some (inner.add key (.tables [[]]))
      | some (.tables items) => some (inner.put key (.tables ([] :: items)))
      | some _ => none) keys.dropLast false tree

end Tree

mutual

def Node.value : Node → Value
  | .leaf value => value
  | .table _ _ entries => .table (Tree.tableBefore entries [])
  | .tables items => .array (Tree.itemValues items [])

/-- The entries of a tree, in the order in which they were added, in front of other ones. -/
def Tree.tableBefore : List (String × Node) → (behind : Table) → Table
  | [], behind => behind
  | (key, node) :: rest, behind => Tree.tableBefore rest ((key, node.value) :: behind)

/-- The values of repeated tables, which are given last one first, in front of other values. -/
def Tree.itemValues : List (List (String × Node)) → (behind : List Value) → List Value
  | [], behind => behind
  | item :: rest, behind => Tree.itemValues rest (.table (Tree.tableBefore item []) :: behind)

end

/-- The table that a tree stands for. -/
def Tree.table (tree : Tree) : Table :=
  Tree.tableBefore tree []

end CrossRef.Toml
