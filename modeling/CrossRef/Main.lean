import CrossRef.Command.Run

/-! The program itself: the operations of a real disk, and the command line. -/

namespace CrossRef

/-- Tells the causes apart that reports put into words of their own. -/
def DiskError.ofIO : IO.Error → DiskError
  | .noFileOrDirectory .. => .notFound
  | .alreadyExists .. => .alreadyExists
  | .inappropriateType _ code _ => if code = 21 then .isDirectory else .notDirectory
  | e => .other (toString e)

/-- Runs an operation and keeps its failure. -/
def attempt (action : IO α) : IO (Except DiskError α) := do
  try
    return .ok (← action)
  catch e =>
    return .error (.ofIO e)

/-- The regular files below a directory, each by the names that lead to it behind `names`. -/
partial def filesUnder (isWanted : String → Bool) (directory : String) (names : List String) :
    IO (List (List String)) := do
  let place ← IO.FS.realPath directory
  let mut found := []
  for entry in ← place.readDir do
    if isWanted entry.fileName then
      let inner := names ++ [entry.fileName]
      match (← entry.path.symlinkMetadata).type with
      | .file => found := inner :: found
      | .dir => found := (← filesUnder isWanted entry.path.toString inner) ++ found
      | _ => pure ()
  return found

/-- The disk that the program runs on. -/
def realDisk (workingDirectory : Path) : Disk IO where
  workingDirectory
  canonical path := attempt do
    return .ofText (← IO.FS.realPath path.text).toString
  read path := attempt (IO.FS.readBinFile path.text)
  size path := attempt do
    let place ← IO.FS.realPath path.text
    return (← place.metadata).byteSize.toNat
  isPresent path := do
    return (← attempt (IO.FS.realPath path.text)).toOption.isSome
  filesBelow isWanted path := do
    match ← attempt do return (← (← IO.FS.realPath path.text).metadata).type with
    | .ok .file => return [[]]
    | .ok .dir => return (← attempt (filesUnder isWanted path.text [])).toOption.getD []
    | _ => return []
  write path text := attempt (IO.FS.writeFile path.text text)
  makeDirectory path := attempt (IO.FS.createDirAll path.text)

end CrossRef

open CrossRef in
def main (args : List String) : IO UInt32 := do
  let names := ["SYMSCOPE_SOLUTION", "SYMSCOPE_OUTPUT_FORMAT", "SYMSCOPE_MAX_CONCURRENT",
    "SYMSCOPE_RENAME_STRATEGY", "XDG_CONFIG_HOME", "HOME"]
  let values ← names.mapM fun name => return (name, ← IO.getEnv name)
  let outcome ← runProgram (realDisk (.ofText (← IO.currentDir).toString))
    (fun name => (values.lookup name).join) args
  IO.print outcome.text
  return outcome.code.toUInt32
