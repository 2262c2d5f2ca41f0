import CrossRef.Collect.Distinct
import CrossRef.Disk
import CrossRef.Manifest
import CrossRef.Solution.Basic
import CrossRef.Toml.Document

/-! Loading the solution that a manifest describes from a disk, and writing changed documents back. -/

namespace CrossRef

/-- Hidden files and directories of build products hold no sources. -/
def isSourceName (name : String) : Bool :=
  name.toList.head? != some '.' && name != "target" && name != "node_modules"

/-- How much of a file is looked through for a zero byte, which no text has. -/
def probedBytes : Nat := 8192

/-- The text in the bytes of a source file, unless they are something else. -/
def sourceText? (bytes : ByteArray) : Option String :=
  if (bytes.extract 0 probedBytes).toList.contains 0 then none else String.fromUTF8? bytes

/-- A solution with the directory of its manifest. -/
structure LoadedSolution where
  root : Path
  solution : Solution

namespace Disk

variable {m : Type → Type} [Monad m] (disk : Disk m)

/-- Reads a source file of at most so many bytes. -/
def readSource (limit : Option Nat) (path : Path) : ExceptT SolutionError m String := do
  match ← disk.size path with
  | .error e => throw (.io e.message)
  | .ok size =>
    if let some limit := limit then
      if size > limit then
        throw (.fileTooLarge path (size / 1024 / 1024) (limit / 1024 / 1024))
    match ← disk.read path with
    | .error e => throw (.io e.message)
    | .ok bytes =>
      match sourceText? bytes with
      | some text => return text
      | none => throw (.binaryFile path)

/-- The sources below a directory, directory by directory in the order of names. -/
def findSources (root : Path) (extensions : List String) : m (List Path) := do
  let found ← disk.filesBelow isSourceName root
  let paths := (found.mergeSort fun a b => (compare a b).isLE).map root.append
  return paths.filter fun path => path.extension?.any extensions.contains

/-- The listed sources of a project. -/
def listedSources (entry : ProjectEntry) (root : Path) (files : List Path) :
    ExceptT SolutionError m (List Path) :=
  files.mapM fun file => do
    match ← disk.canonical (root.join file) with
    | .ok path => return path
    | .error e =>
      throw (.manifest ("project '" ++ entry.name ++ "': " ++ file.text ++ ": " ++ e.message))

/-- Loads a project of a manifest that lies in the directory `base`. -/
def loadProject (limit : Option Nat) (base : Path) (entry : ProjectEntry) :
    ExceptT SolutionError m Project := do
  match ← disk.canonical (base.join entry.root) with
  | .error e =>
    throw (.manifest ("project '" ++ entry.name ++ "': root " ++ entry.root.text ++ ": " ++ e.message))
  | .ok root =>
    let paths ← match entry.files with
      | some files => disk.listedSources entry root files
      | none => disk.findSources root entry.extensions
    let files ← paths.mapM fun path => do
      let text ← disk.readSource limit path
      pure (path, text)
    return Project.ofFiles entry.name ⟨entry.defines, entry.references⟩ files

/-- Reads a manifest. -/
def readManifest (path : Path) : ExceptT SolutionError m Manifest := do
  match ← disk.readText path with
  | .error e => throw (.manifest (path.text ++ ": " ++ e.message))
  | .ok text =>
    match (Toml.read? text).bind Manifest.ofTable? with
    | some manifest => return manifest
    | none => throw (.manifest (path.text ++ ": TOML parse error"))

/-- Loads the solution that a manifest describes. -/
def loadSolution (limit : Option Nat) (path : Path) : ExceptT SolutionError m LoadedSolution := do
  let manifest ← disk.readManifest path
  let directory := (path.parent?.filter (·.text ≠ "")).getD (.ofText ".")
  match ← disk.canonical directory with
  | .error e => throw (.io e.message)
  | .ok root =>
    let projects ← manifest.mapM (disk.loadProject limit root)
    let solution ← Solution.build projects
    return ⟨root, solution⟩

end Disk

/-- What has to be written after edits: each changed file once, with its text. A file of several projects
is written as the first of them has it. -/
def Solution.changedFiles (updated base : Solution) : List (Path × String) :=
  let ids := (updated.changedSince base).mergeSort fun a b => (compare a b).isLE
  (distinctBy (·.path.components) ids).filterMap fun id =>
    (updated.document? id).map fun document => (id.path, document.text)

/-- Writes the changed files, and gives their paths. -/
def Disk.writeChanges {m : Type → Type} [Monad m] (disk : Disk m) (updated base : Solution) :
    ExceptT SolutionError m (List Path) :=
  (updated.changedFiles base).mapM fun (path, text) => do
    match ← disk.write path text with
    | .ok () => return path
    | .error e => throw (.io e.message)

end CrossRef
