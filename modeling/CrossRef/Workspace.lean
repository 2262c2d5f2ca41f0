import CrossRef.Location
import CrossRef.Manifest.Sources
import CrossRef.Session
import CrossRef.Settings.Files

/-! What commands work with: a manifest, the settings that hold for it, and the solution it describes. -/

namespace CrossRef

/-- What a command is carried out with. -/
structure Workspace where
  manifest : Path
  /-- The directory of the manifest, or the working directory if there is no manifest. -/
  root : Path
  files : SettingsFiles
  settings : Settings

/-- Why a command cannot be carried out. -/
inductive Failure where
  | error (cause : Error)
  | location (cause : LocationError)
  | notIdentifier (name : String)
deriving DecidableEq, Repr

def Failure.message : Failure → String
  | error cause => cause.message
  | location cause => cause.message
  | notIdentifier name => "'" ++ name ++ "' is not a valid identifier"

namespace Workspace

variable {m : Type → Type} [Monad m] (disk : Disk m)

/-- Settings that cannot be loaded are replaced by the defaults. -/
def start (vars : Variables) (manifest : Path) : m Workspace := do
  let manifest := disk.absolute manifest
  let directory ← match manifest.parent? with
    | some directory => disk.canonical directory
    | none => pure (.error .notFound)
  let root := match directory, ← disk.isPresent manifest with
    | .ok directory, true => directory
    | _, _ => disk.workingDirectory
  let files : SettingsFiles := ⟨SettingsFiles.sharedPath vars, root⟩
  let settings := match ← (files.load disk vars .solution).run with
    | .ok settings => settings
    | .error _ => {}
  return ⟨manifest, root, files, settings⟩

def load (workspace : Workspace) : ExceptT SolutionError m LoadedSolution :=
  disk.loadSolution workspace.settings.fileBytes? workspace.manifest

/-- Loads the solution, which the command needs. -/
def solution (workspace : Workspace) : ExceptT Failure m Solution := do
  match ← (workspace.load disk).run with
  | .ok loaded => return loaded.solution
  | .error e => throw (.error (.solution e))

def service (workspace : Workspace) : Service m where
  checker := plainChecker
  options? := Solution.options?
  lookup := workspace.settings.lookup

/-- The cursor that a location means in a solution. -/
def locate (solution : Solution) (text : String) : ExceptT Failure m Cursor := do
  let location ← (Location.parse text).mapError Failure.location
  let path := disk.absolute location.file
  match ← disk.canonical path with
  | .error _ => throw (.location (.fileNotFound path))
  | .ok file =>
    match (solution.documentsOf file).head?.bind solution.document? with
    | none => throw (.error (.solution (.fileNotInSolution file)))
    | some document =>
      let offset ← (location.offsetIn document.text).mapError Failure.location
      return ⟨document.id, offset⟩

end Workspace

end CrossRef
