import CrossRef.Disk
import CrossRef.Error
import CrossRef.Settings
import CrossRef.Toml.Document

/-! The two files that hold settings: one for all solutions and one for a single solution. The second is
laid over the first, and the environment over both. -/

namespace CrossRef

inductive Level where
  | everywhere
  | solution
deriving DecidableEq, Repr

structure SettingsFiles where
  /-- The file for all solutions. -/
  shared : Path
  /-- The directory of the solution. -/
  root : Path

namespace SettingsFiles

/-- The file for all solutions lies below the configuration directory, or else below the home
directory. -/
def sharedPath (vars : Variables) : Path :=
  let home := (vars "HOME").filter (· ≠ "")
  let directory : Path :=
    match vars "XDG_CONFIG_HOME", home with
    | some directory, _ => .ofText directory
    | none, some home => (Path.ofText home).join (.ofText ".config")
    | none, none => .ofText "."
  directory.append ["symscope", "config.toml"]

def path (files : SettingsFiles) : Level → Path
  | .everywhere => files.shared
  | .solution => files.root.append [".symscope", "config.toml"]

variable {m : Type → Type} [Monad m] (disk : Disk m)

/-- The table in a file, which is empty if there is no such file. -/
def table (path : Path) : ExceptT SettingsError m Toml.Table := do
  if !(← disk.isPresent path) then
    return []
  match ← disk.readText path with
  | .error e => throw (.io e.message)
  | .ok text =>
    match (Toml.read? text).bind Toml.Table.withMoments? with
    | some table => return table
    | none => throw (.malformed (path.text ++ ": TOML parse error"))

/-- The settings of one level. Those for all solutions are taken alone. -/
def load (files : SettingsFiles) (vars : Variables) (level : Level) :
    ExceptT SettingsError m Settings := do
  let shared ← table disk files.shared
  let merged ← match level with
    | .everywhere => pure shared
    | .solution => do
      let own ← table disk (files.path .solution)
      pure (Toml.Table.merge shared own)
  match Settings.ofTable? merged with
  | none => throw (.malformed "invalid value")
  | some settings =>
    match level with
    | .everywhere => return settings
    | .solution => return settings.withVariables vars

/-- Writes a file with the defaults. One that is there already is only replaced by force. -/
def init (files : SettingsFiles) (level : Level) (force : Bool) : ExceptT SettingsError m Path := do
  let path := files.path level
  if (← disk.isPresent path) && !force then
    throw (.invalidValue "config"
      ("Config already exists: " ++ path.text ++ ". Use --force to overwrite."))
  let directory := path.parent?.getD (.ofText "")
  match ← disk.makeDirectory directory with
  | .error e => throw (.io e.message)
  | .ok () =>
    match ← disk.write path Settings.initialDocument with
    | .error e => throw (.io e.message)
    | .ok () => return path

end SettingsFiles

end CrossRef
