import CrossRef.Path
import CrossRef.Toml.Decode

/-! A manifest describes the projects of a solution: where their sources are and what they refer to. -/

namespace CrossRef

/-- One project of a manifest. -/
structure ProjectEntry where
  name : String
  /-- The directory of the sources, as seen from the manifest. -/
  root : Path := .ofText "."
  /-- The sources in the order in which they are compiled, as seen from the root. Without it they are
  looked for. -/
  files : Option (List Path) := none
  defines : List String := []
  references : List String := []
  /-- The extensions that sources are looked for by. -/
  extensions : List String := ["ml"]
deriving DecidableEq, Repr

abbrev Manifest := List ProjectEntry

namespace ProjectEntry

private def lenient : Toml.Leniency where
  momentsAsText := false
  surplusItems := true

/-- Takes a project out of a value. It has to have a name. -/
def ofValue? (value : Toml.Value) : Option ProjectEntry := do
  let field ← value.fields? lenient ["name", "root", "files", "defines", "references", "extensions"]
  let text := Toml.Value.text? lenient
  let texts := Toml.Value.texts? lenient
  let base : ProjectEntry := { name := ← text (← field "name") }
  return { base with
    root := ← Toml.orElse base.root (fun v => (text v).map Path.ofText) (field "root")
    files := ← Toml.orElse base.files (fun v => (texts v).map fun files => some (files.map Path.ofText))
      (field "files")
    defines := ← Toml.orElse base.defines texts (field "defines")
    references := ← Toml.orElse base.references texts (field "references")
    extensions := ← Toml.orElse base.extensions texts (field "extensions") }

end ProjectEntry

/-- Takes a manifest out of a table. -/
def Manifest.ofTable? (table : Toml.Table) : Option Manifest :=
  Toml.orElse [] (fun value => do (← value.array?).mapM ProjectEntry.ofValue?)
    (Toml.Table.get? table "project")

end CrossRef
