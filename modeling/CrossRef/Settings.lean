import CrossRef.Rename.Strategy
import CrossRef.Syntax.Candidate
import CrossRef.Text.Digits
import CrossRef.Toml.Decode

/-! The settings of the program: their defaults, how a table gives them, and which of them the environment
may replace. -/

namespace CrossRef

namespace Syntax.Lookup

def name : Lookup → String
  | precise => "precise"
  | greedy => "greedy"

def ofName? (name : String) : Option Lookup :=
  [precise, greedy].find? (·.name == name)

theorem ofName?_name (l : Lookup) : ofName? l.name = some l := by
  cases l <;> decide

end Syntax.Lookup

/-- The variables that the program is run with. -/
abbrev Variables := String → Option String

structure Settings where
  /-- How many projects are searched at the same time. -/
  concurrentProjects : Nat := 8
  lookup : Syntax.Lookup := .greedy
  /-- How long a check is kept, in seconds. -/
  cacheSeconds : Nat := 300
  /-- How many checks are kept. -/
  cachedFiles : Nat := 1000
  /-- The size of the largest file that is read, in megabytes; zero means that there is no limit. -/
  fileMegabytes : Nat := 5
  strategy : Rename.Strategy := .batched
  /-- The name of the format of reports. -/
  format : String := "json"
deriving DecidableEq, Repr, Inhabited

namespace Settings

/-- At least one project is searched at a time. -/
def concurrency (s : Settings) : Nat :=
  max 1 s.concurrentProjects

/-- The size of the largest file that is read, in bytes, if there is a limit. -/
def fileBytes? (s : Settings) : Option Nat :=
  if s.fileMegabytes = 0 then none else some (s.fileMegabytes * 1024 * 1024)

private def lenient : Toml.Leniency where
  momentsAsText := true
  surplusItems := false

/-- The fields of one section; none is there if the section is missing. -/
private def section? (table : Toml.Table) (key : String) (names : List String) :
    Option (String → Option Toml.Value) :=
  Toml.orElse (fun _ => none) (Toml.Value.fields? lenient names) (Toml.Table.get? table key)

/-- Takes the settings out of a table. What is missing has its default. -/
def ofTable? (table : Toml.Table) : Option Settings := do
  let search ← section? table "search" ["max_concurrent_projects", "lookup"]
  let check ← section? table "check" ["cache_ttl_secs", "max_cached_files", "max_file_size_mb"]
  let rename ← section? table "rename" ["strategy"]
  let output ← section? table "output" ["format"]
  let base : Settings := {}
  let count := Toml.Value.natural? (Nat.pow 2 64)
  return {
    concurrentProjects := ← Toml.orElse base.concurrentProjects count (search "max_concurrent_projects")
    lookup := ← Toml.orElse base.lookup (Toml.Value.word? Syntax.Lookup.ofName?) (search "lookup")
    cacheSeconds := ← Toml.orElse base.cacheSeconds count (check "cache_ttl_secs")
    cachedFiles := ← Toml.orElse base.cachedFiles count (check "max_cached_files")
    fileMegabytes :=
      ← Toml.orElse base.fileMegabytes (Toml.Value.natural? (Nat.pow 2 32)) (check "max_file_size_mb")
    strategy := ← Toml.orElse base.strategy (Toml.Value.word? Rename.Strategy.ofName?) (rename "strategy")
    format := ← Toml.orElse base.format (Toml.Value.text? lenient) (output "format") }

/-- The settings with what the environment says instead. A value that cannot be read is ignored. -/
def withVariables (s : Settings) (vars : Variables) : Settings :=
  let concurrent := (vars "SYMSCOPE_MAX_CONCURRENT").bind fun text =>
    Text.natural? (Nat.pow 2 64) text.toList
  let strategy := (vars "SYMSCOPE_RENAME_STRATEGY").bind fun text =>
    (Rename.Strategy.parse text).toOption
  { s with
    format := (vars "SYMSCOPE_OUTPUT_FORMAT").getD s.format
    concurrentProjects := concurrent.getD s.concurrentProjects
    strategy := strategy.getD s.strategy }

/-- The document that gives a setting its value. -/
def line (key value : String) : String :=
  key ++ " = " ++ value ++ "\n"

/-- A document with all defaults written out. -/
def initialDocument : String :=
  let base : Settings := {}
  let quoted (s : String) := "\x22" ++ s ++ "\x22"
  "[search]\n" ++ line "max_concurrent_projects" (toString base.concurrentProjects) ++
    line "lookup" (quoted base.lookup.name) ++
    "\n[check]\n" ++ line "cache_ttl_secs" (toString base.cacheSeconds) ++
    line "max_cached_files" (toString base.cachedFiles) ++
    line "max_file_size_mb" (toString base.fileMegabytes) ++
    "\n[rename]\n" ++ line "strategy" (quoted base.strategy.name) ++
    "\n[output]\n" ++ line "format" (quoted base.format)

end Settings

end CrossRef
