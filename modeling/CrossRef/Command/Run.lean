import CrossRef.Command.Arguments
import CrossRef.Report.Content
import CrossRef.Workspace

/-! Carrying out commands. A command gives a report, which is printed in the format of the settings; if it
fails, the failure is reported as JSON whatever the format is. -/

namespace CrossRef

/-- What the program prints, and the code that it ends with. -/
structure Outcome where
  text : String
  code : Nat
deriving DecidableEq, Repr

namespace Workspace
open Command
open Report (Value)

variable {m : Type → Type} [Monad m] (disk : Disk m) (workspace : Workspace)

private def ofSearch (search : ExceptT Error m α) : ExceptT Failure m α :=
  ExceptT.adapt Failure.error search

/-- The report on references. -/
def referencesReport (symbol : Option Symbol) (visibility : Option Visibility) (uses : List Use)
    (message : Option String) : Value :=
  let root := workspace.root
  Report.success ([("count", .number uses.length), ("references", .list (uses.map (Report.ofUse root)))] ++
    (symbol.map fun s => ("symbol", Report.ofSymbol root s)).toList ++
    (visibility.map fun v => ("declaration", Report.ofVisibility v)).toList ++
    (message.map fun text => ("message", .text text)).toList)

def noSymbol : String := "No symbol at this position"

/-- Finds the uses of the symbol at a location. In a file, uses at one place count once. -/
def findReferences (location : String) (scope : Scope) : ExceptT Failure m Value := do
  let solution ← workspace.solution disk
  let cursor ← locate disk solution location
  let service : Service m := workspace.service
  match scope with
  | .file =>
    match ← ofSearch (service.fileUses solution cursor) with
    | none => return workspace.referencesReport none none [] (some noSymbol)
    | some uses =>
      let uses := distinctPlaces uses
      return workspace.referencesReport (uses.head?.map (·.symbol)) none uses none
  | .solution =>
    match ← ofSearch (service.references solution cursor false) with
    | none => return workspace.referencesReport none none [] (some noSymbol)
    | some found =>
      return workspace.referencesReport (some found.symbol) (some found.visibility)
        (found.documents.flatMap (·.uses)) none

/-- The report on a rename. -/
def renameReport (oldName : Option String) (newName : String) (isTrial : Bool)
    (changes : List (Path × Nat)) (message : Option String) : Value :=
  Report.success ([
    ("old_name", oldName.elim .null .text), ("new_name", .text newName), ("dry_run", .flag isTrial),
    ("affected_files", .number changes.length),
    ("changes", .list (changes.map fun (path, edits) => Report.ofChange workspace.root path edits))] ++
    (message.map fun text => ("message", .text text)).toList)

/-- The number of edits in each file, in the order of paths. A file of several documents is counted through one of
them. Where documents come in no order it may be any, so this is one of the possible results: it takes the one with
the fewest uses, since a project that lists a file again and again has more uses there than the file has edits. -/
def editsByFile (groups : List DocumentUses) : List (Path × Nat) :=
  let counts := Buckets.ofList (·.1) (groups.map fun group =>
    (group.document.path.components, group.uses.length))
  let paths := (distinctBy (·.components) (groups.map (·.document.path))).mergeSort fun p q =>
    (compare p q).isLE
  paths.map fun path => (path, ((counts.get path.components).map (·.2)).min?.getD 0)

/-- Carries out a plan and writes what has changed. Only the files that were written are reported. -/
def commit (solution : Solution) (plan : Plan) (edits : List (Path × Nat)) :
    ExceptT Failure m (List (Path × Nat)) := do
  let service : Service m := workspace.service
  let updated ← ofSearch (service.apply plan solution false)
  let written ← ExceptT.adapt (fun e => Failure.error (.solution e)) (disk.writeChanges updated solution)
  return edits.filter fun (path, _) => written.any fun other => decide (path.Same other)

/-- Renames the symbol at a location. -/
def renameSymbol (location newName : String) (isTrial : Bool) : ExceptT Failure m Value := do
  if !Syntax.isIdentifier newName then
    throw (.notIdentifier newName)
  let solution ← workspace.solution disk
  let cursor ← locate disk solution location
  let service : Service m := workspace.service
  let unchanged (oldName : Option String) (message : String) : Value :=
    workspace.renameReport oldName newName true [] (some message)
  let document ← (solution.find cursor.document).mapError Failure.error
  match ← (service.candidateAt solution document cursor.offset).mapError Failure.error with
  | none => return unchanged none noSymbol
  | some candidate =>
    let strategy := workspace.settings.strategy
    match ← ofSearch (service.plan solution document candidate.span strategy fun _ => newName) with
    | none => return unchanged (some candidate.name) "Symbol cannot be renamed from this position"
    | some plan =>
      if plan.covered = plan.new then
        return unchanged (some plan.covered) "Symbol is already named the same. No changes needed."
      let groups ← ofSearch (service.locations plan solution false)
      let edits := editsByFile groups
      let changes ← if isTrial then pure edits else workspace.commit disk solution plan edits
      return workspace.renameReport (some plan.covered) newName isTrial changes none

def projectReport (solution : Solution) (isDetailed : Bool) (project : Project) : Value :=
  .ofFields ([
    ("name", .text project.id), ("document_count", .number project.documents.length),
    ("references", .texts project.configuration.references),
    ("dependents", .texts (solution.dependents project.id))] ++
    (if project.configuration.defines.isEmpty then []
     else [("defines", .texts project.configuration.defines)]) ++
    (if isDetailed then
      [("documents", .texts (project.documents.map fun d => Report.shownPath workspace.root d.path))]
     else []))

/-- Describes the solution and the settings. That the solution cannot be loaded is part of the report. -/
def describe (isDetailed : Bool) : m Value := do
  let loaded ← (workspace.load disk).run
  let settings := workspace.settings
  let about : List (String × Value) := match loaded with
    | .ok loaded => [("loaded", .flag true),
      ("projects", .list (loaded.solution.projects.map (workspace.projectReport loaded.solution isDetailed)))]
    | .error e => [("loaded", .flag false), ("projects", .list []), ("error", .text e.message)]
  return Report.success ([
    ("manifest", .text (Report.shownPath workspace.root workspace.manifest)),
    ("settings", .ofFields [("lookup", .text settings.lookup.name),
      ("rename_strategy", .text settings.strategy.name),
      ("max_concurrent_projects", .number settings.concurrency)])] ++ about)

/-- The file of a level as reports show it. -/
def shownFile (level : Level) : String :=
  let path := workspace.files.path level
  match level with
  | .everywhere => path.text
  | .solution => Report.shownPath workspace.root path

def levelName : Level → String
  | .everywhere => "global"
  | .solution => "project"

/-- Carries out a command about settings. A failure is reported like anything else. -/
def handleSettings (vars : Variables) (command : SettingsCommand) : m Value := do
  match command with
  | .init level force =>
    match ← (workspace.files.init disk level force).run with
    | .ok _ => return Report.success [("status", .text "created"), ("path", .text (workspace.shownFile level)),
      ("level", .text (levelName level))]
    | .error e => return Report.failure e.message
  | .view level =>
    match ← (workspace.files.load disk vars level).run with
    | .ok settings => return Report.success [("config", Report.ofSettings settings),
      ("level", .text (if level = .everywhere then "global" else "merged"))]
    | .error e => return Report.failure e.message
  | .path level =>
    return Report.success [("path", .text (workspace.shownFile level)), ("level", .text (levelName level)),
      ("exists", .flag (← disk.isPresent (workspace.files.path level)))]

/-- Carries out a command. -/
def report (vars : Variables) : Command → ExceptT Failure m Value
  | .references location scope => workspace.findReferences disk location scope
  | .rename location newName isTrial => workspace.renameSymbol disk location newName isTrial
  | .status isDetailed => ExceptT.lift (workspace.describe disk isDetailed)
  | .settings command => ExceptT.lift (workspace.handleSettings disk vars command)

end Workspace

def helpText : String :=
  "Usage: " ++ Command.programName ++ " [--solution <FILE>] [-v] <COMMAND>\n\n" ++
    "  refs <FILE:LINE[:COLUMN]> [--scope file|solution]\n" ++
    "  rename <FILE:LINE[:COLUMN]> <NAME> [--dry-run]\n" ++
    "  status [--detailed]\n" ++
    "  config init|show|path [--global] [--force]\n"

/-- What the program prints for some arguments. -/
def runProgram {m : Type → Type} [Monad m] (disk : Disk m) (vars : Variables) (args : List String) :
    m Outcome := do
  match Command.parse vars args with
  | .error .usage => return ⟨"", 2⟩
  | .error (.version name) => return ⟨name ++ " " ++ Command.programVersion ++ "\n", 0⟩
  | .error (.help _) => return ⟨helpText, 0⟩
  | .ok invocation =>
    let workspace ← Workspace.start disk vars invocation.manifest
    match ← (workspace.report disk vars invocation.command).run with
    | .ok value => return ⟨value.render (.ofName workspace.settings.format), 0⟩
    | .error failure => return ⟨(Report.failure failure.message).render .json, 2⟩

end CrossRef
