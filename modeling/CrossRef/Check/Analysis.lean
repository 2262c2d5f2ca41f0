import CrossRef.Check.Role
import CrossRef.Collect.Tally

/-! The bindings and references of one file. Each binding gets a symbol whose identity is made of the
file, the owner, the name and the number of earlier bindings of that name with the same owner. -/

namespace CrossRef.Check
open Syntax

/-- An identifier that introduces a symbol. -/
structure Binding where
  symbol : Symbol
  token : Token
  /-- Where a local name goes out of scope, if it does. -/
  scopeEnd : Option Nat
deriving DecidableEq, Repr, Inhabited

namespace Binding

def offset (b : Binding) : Nat :=
  b.token.span.start

/-- Whether an offset lies behind the binding and inside its scope. -/
def covers (b : Binding) (offset : Nat) : Bool :=
  b.scopeEnd.all (offset < ·) && b.offset < offset

theorem before_scopeEnd {b : Binding} {offset : Nat} (covers : b.covers offset) :
    b.scopeEnd.all (offset < ·) := by
  rw [Binding.covers, Bool.and_eq_true] at covers
  exact covers.1

end Binding

/-- An identifier that stands for a symbol bound elsewhere. -/
structure Reference where
  token : Token
  kind : Occurrence
deriving DecidableEq, Repr, Inhabited

namespace Reference

def name (r : Reference) : String :=
  r.token.name

def offset (r : Reference) : Nat :=
  r.token.span.start

end Reference

inductive Mark where
  | binding (b : Binding)
  | reference (r : Reference)
deriving DecidableEq, Repr

/-- A file with its marks in the order of the text. -/
structure Analysis where
  path : Path
  marks : List Mark
  diagnostics : List Diagnostic
deriving DecidableEq, Repr

/-- Whether a token starts a declaration of the module. -/
def startsTopLevel (t : Token) : Bool :=
  t.column == 0 && (t.isKeyword "let" || t.isKeyword "type")

/-- A token with its role. Local names bound there go out of scope where the next declaration of the
module starts. -/
structure ScopedToken where
  token : Token
  role : Role
  scopeEnd : Option Nat
deriving DecidableEq, Repr

/-- The start of the first declaration of the module among some tokens. -/
def nextTopLevel? (tokens : List (Token × Role)) : Option Nat :=
  (tokens.find? fun (t, _) => startsTopLevel t).map fun (t, _) => t.span.start

/-- Finds the end of the scope around each token. -/
def withScopes : List (Token × Role) → List ScopedToken
  | [] => []
  | (t, role) :: rest =>
    let behind := withScopes rest
    let scopeEnd := behind.head?.bind fun next =>
      if startsTopLevel next.token then some next.token.span.start else next.scopeEnd
    ⟨t, role, scopeEnd⟩ :: behind

@[simp] theorem withScopes_nil : withScopes [] = [] := rfl

/-- The scope around a token ends at the first declaration behind it. -/
@[simp] theorem withScopes_cons (t : Token) (role : Role) (rest : List (Token × Role)) :
    withScopes ((t, role) :: rest) = ⟨t, role, nextTopLevel? rest⟩ :: withScopes rest := by
  induction rest generalizing t role with
  | nil => rfl
  | cons next rest ih =>
    obtain ⟨nextToken, nextRole⟩ := next
    rw [withScopes, ih]
    by_cases top : startsTopLevel nextToken <;> simp [nextTopLevel?, top]

/-- The owner of local names below a module-level binding. -/
def ownerKey (name : String) (ordinal : Nat) : String :=
  name ++ "#" ++ toString ordinal

/-- The identity of a binding: file, owner, name, and number among the owner's bindings of the name. -/
def identity (path : Path) (owner name : String) (ordinal : Nat) : SymbolId :=
  ⟨path.text ++ ":" ++ owner ++ "/" ++ name ++ "#" ++ toString ordinal⟩

/-- The symbol of a binder. -/
def symbolOf (path : Path) (owner : String) (ordinal : Nat) (t : Token) (kind : SymbolKind)
    (access : Access) (isLocal : Bool) : Symbol :=
  ⟨identity path owner t.name ordinal, t.name, kind, access, isLocal, some ⟨path, t.range⟩⟩

/-- Turns roles into marks. `owner` is the key of the module-level binding before, and `seen` counts the
bindings before by owner and name. -/
def marksFrom (path : Path) :
    (owner : String) → (seen : Tally (String × String)) → List ScopedToken → List Mark
  | _, _, [] => []
  | owner, seen, ⟨t, role, scopeEnd⟩ :: rest =>
    match role with
    | .binder kind access isLocal =>
      let home := if isLocal then owner else ""
      let ordinal := seen.count (home, t.name)
      .binding ⟨symbolOf path home ordinal t kind access isLocal, t, if isLocal then scopeEnd else none⟩ ::
        marksFrom path (if isLocal then owner else ownerKey t.name ordinal) (seen.add (home, t.name)) rest
    | .reference kind => .reference ⟨t, kind⟩ :: marksFrom path owner seen rest
    | .qualifier | .other => marksFrom path owner seen rest

namespace Analysis

def ofText (path : Path) (text : String) (defines : List String) : Analysis :=
  let lexed := lex text defines
  ⟨path, marksFrom path "" .empty (withScopes (roles lexed.tokens)), lexed.diagnostics⟩

def bindings (a : Analysis) : List Binding :=
  a.marks.filterMap fun
    | .binding b => some b
    | .reference _ => none

def references (a : Analysis) : List Reference :=
  a.marks.filterMap fun
    | .binding _ => none
    | .reference r => some r

/-- The module-level bindings that satisfy a condition on their access. -/
def exports (a : Analysis) (visible : Access → Bool) : List Binding :=
  a.bindings.filter fun b => !b.symbol.isLocal && visible b.symbol.access

end Analysis

end CrossRef.Check
