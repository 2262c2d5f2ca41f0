import CrossRef.Path.Relative
import CrossRef.Report.Value
import CrossRef.Search.Visibility
import CrossRef.Settings

/-! The parts that reports are made of. Lines and columns count from one here, and a path inside the
solution's directory is written as seen from there. -/

namespace CrossRef.Report

/-- A path as a report shows it. -/
def shownPath (root path : Path) : String :=
  ((root.relativeTo? path).getD path).text

/-- Where something starts. -/
def ofPlace (root : Path) (place : Place) : Value :=
  let (line, column) := place.range.start.toDisplay
  .ofFields [("file", .text (shownPath root place.file)), ("line", .number line),
    ("column", .number column)]

def ofUse (root : Path) (use : Use) : Value :=
  let (_, endColumn) := use.place.range.stop.toDisplay
  (ofPlace root use.place).insert "end_column" (.number endColumn) |>.insert "kind" (.text use.kind.name)

def ofSymbol (root : Path) (symbol : Symbol) : Value :=
  .ofFields ([("name", .text symbol.name), ("kind", .text symbol.kind.name),
    ("accessibility", .text symbol.access.name)] ++
    (symbol.declaration.map fun place => ("declared_at", ofPlace root place)).toList)

/-- The edits in one file. -/
def ofChange (root path : Path) (edits : Nat) : Value :=
  .ofFields [("file", .text (shownPath root path)), ("edit_count", .number edits)]

def ofVisibility : Visibility → Value
  | .currentDocument => .ofFields [("scope", .text "current_document_only")]
  | .projects projects isInternal =>
    .ofFields [("scope", .text "visible_in_projects"), ("projects", .texts projects),
      ("is_internal", .flag isInternal)]

/-- All settings, by section. -/
def ofSettings (s : Settings) : Value :=
  .ofFields [
    ("search", .ofFields [("max_concurrent_projects", .number s.concurrentProjects),
      ("lookup", .text s.lookup.name)]),
    ("check", .ofFields [("cache_ttl_secs", .number s.cacheSeconds),
      ("max_cached_files", .number s.cachedFiles), ("max_file_size_mb", .number s.fileMegabytes)]),
    ("rename", .ofFields [("strategy", .text s.strategy.name)]),
    ("output", .ofFields [("format", .text s.format)])]

/-- The value of a command that went well. -/
def success (fields : List (String × Value)) : Value :=
  .ofFields (("success", .flag true) :: fields)

/-- The value of a command that failed. -/
def failure (message : String) : Value :=
  .ofFields [("success", .flag false), ("error", .text message)]

end CrossRef.Report
