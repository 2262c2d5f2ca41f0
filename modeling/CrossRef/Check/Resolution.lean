import CrossRef.Check.OwnBindings
import CrossRef.Collect.Buckets
import CrossRef.Collect.Distinct
import CrossRef.Solution.Options

/-! What a name stands for: the nearest binding before it in its file, else a module-level name of
another file of the project, else a public name of a project that is referred to directly. Bindings are
kept by name, so that looking one up does not go through all of them. -/

namespace CrossRef.Check

/-- A binding that other files see, with the file that it is in. -/
structure Export where
  path : Path
  binding : Binding
deriving DecidableEq, Repr

/-- The exported bindings of some files, in their order. -/
def exportsOf (visible : Access → Bool) (files : List Analysis) : List Export :=
  files.flatMap fun file => (file.exports visible).map fun b => ⟨file.path, b⟩

/-- The first exported binding of each name in each of some files. No other one is ever found. -/
def firstExportsOf (visible : Access → Bool) (files : List Analysis) : List Export :=
  files.flatMap fun file => (distinctBy (·.symbol.name) (file.exports visible)).map fun b => ⟨file.path, b⟩

theorem find?_firstExportsOf (visible : Access → Bool) (files : List Analysis) (p : Export → Bool)
    (byName : ∀ path b c, b.symbol.name = c.symbol.name → p ⟨path, b⟩ = p ⟨path, c⟩) :
    (firstExportsOf visible files).find? p = (exportsOf visible files).find? p := by
  simp only [firstExportsOf, exportsOf, List.find?_flatMap, List.find?_map]
  congr 1
  funext file
  rw [find?_distinctBy]
  exact byName file.path

/-- What the files of a project see beyond their own bindings. -/
structure Environment where
  files : List Analysis
  /-- What the files of the project export to each other, by name. -/
  siblings : Buckets String Export
  /-- What the projects referred to export, by name. -/
  referenced : Buckets String Export

namespace Environment

def analyses (options : Options) : List Analysis :=
  options.files.map fun file => Analysis.ofText file.path file.text options.defines

/-- The names that the files of a project can see of each other. -/
def siblingExports (options : Options) : List Export :=
  exportsOf (· != .ownFile) (analyses options)

/-- The public names of the projects that a project refers to. -/
def referencedExports (options : Options) : List Export :=
  exportsOf (· == .everywhere) (options.references.flatMap analyses)

def ofOptions (options : Options) : Environment :=
  let files := analyses options
  ⟨files, .ofList (·.binding.symbol.name) (firstExportsOf (· != .ownFile) files),
    .ofList (·.binding.symbol.name) (firstExportsOf (· == .everywhere) (options.references.flatMap analyses))⟩

/-- The first module-level binding of a name in the files of the project other than one. -/
def siblingBinding? (env : Environment) (path : Path) (name : String) : Option Binding :=
  ((env.siblings.get name).find? fun e => ¬e.path.Same path).map (·.binding)

/-- The first public binding of a name in the projects referred to. -/
def referencedBinding? (env : Environment) (name : String) : Option Binding :=
  (env.referenced.get name).head?.map (·.binding)

theorem siblingBinding?_ofOptions (options : Options) (path : Path) (name : String) :
    (ofOptions options).siblingBinding? path name =
      ((siblingExports options).find? fun e =>
        e.binding.symbol.name = name ∧ ¬e.path.Same path).map (·.binding) := by
  simp only [siblingBinding?, ofOptions, Buckets.get_ofList, List.find?_filter]
  rw [find?_firstExportsOf, siblingExports]
  · simp
  · intro path b c same
    simp [same]

theorem referencedBinding?_ofOptions (options : Options) (name : String) :
    (ofOptions options).referencedBinding? name =
      ((referencedExports options).find? (·.binding.symbol.name = name)).map (·.binding) := by
  simp only [referencedBinding?, ofOptions, Buckets.get_ofList, List.head?_filter]
  rw [find?_firstExportsOf, referencedExports]
  intro path b c same
  simp [same]

/-- The binding that a reference in a file stands for, behind the bindings that have been met. -/
def resolve? (env : Environment) (path : Path) (own : OwnBindings) (r : Reference) : Option Binding :=
  own.nearest? r <|> env.siblingBinding? path r.name <|> env.referencedBinding? r.name

/-- The uses at a reference, which stands for a binding or for nothing. An annotation counts as a plain
use and as a use in a type. -/
def usesAt (path : Path) (r : Reference) : Option Binding → List Use
  | none => []
  | some b =>
    let place : Place := ⟨path, r.token.range⟩
    if r.kind = .inType then [⟨b.symbol, place, .use⟩, ⟨b.symbol, place, .inType⟩]
    else [⟨b.symbol, place, r.kind⟩]

/-- The definitions and the resolved references among marks, behind the bindings that have been met. -/
def usesFrom (env : Environment) (path : Path) : OwnBindings → List Mark → List Use
  | _, [] => []
  | own, .binding b :: rest =>
    ⟨b.symbol, ⟨path, b.token.range⟩, .definition⟩ :: usesFrom env path (own.add b) rest
  | own, .reference r :: rest =>
    usesAt path r (env.resolve? path own r) ++ usesFrom env path own rest

/-- The definitions and the resolved references of a file, in the order of the text. -/
def uses (env : Environment) (file : Analysis) : List Use :=
  usesFrom env file.path .empty file.marks

end Environment

end CrossRef.Check
