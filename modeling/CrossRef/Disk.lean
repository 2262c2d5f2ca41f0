import CrossRef.Path.Relative

/-! What the program needs of a disk. The operations are given as a record, so that everything built on
them runs on a real disk as well as on one in memory. -/

namespace CrossRef

inductive DiskError where
  | notFound
  | notDirectory
  | isDirectory
  | alreadyExists
  | nameTooLong
  | zeroInName
  | notText
  | other (message : String)
deriving DecidableEq, Repr

def DiskError.message : DiskError → String
  | notFound => "No such file or directory (os error 2)"
  | notDirectory => "Not a directory (os error 20)"
  | isDirectory => "Is a directory (os error 21)"
  | alreadyExists => "File exists (os error 17)"
  | nameTooLong => "File name too long (os error 36)"
  | zeroInName => "file name contained an unexpected NUL byte"
  | notText => "stream did not contain valid UTF-8"
  | other message => message

structure Disk (m : Type → Type) where
  /-- Where relative paths start. -/
  workingDirectory : Path
  /-- The one absolute spelling of a path to something that exists. -/
  canonical : Path → m (Except DiskError Path)
  read : Path → m (Except DiskError ByteArray)
  /-- The number of bytes that something takes. -/
  size : Path → m (Except DiskError Nat)
  isPresent : Path → m Bool
  /-- The files below a path, each by the names that lead to it, in any order. Names that are not wanted
  are left out, and directories of such names are not entered. If the path is a file, no name leads to
  it. -/
  filesBelow : (isWanted : String → Bool) → Path → m (List (List String))
  write : Path → String → m (Except DiskError Unit)
  /-- Makes a directory and those that it lies in, as far as they are missing. -/
  makeDirectory : Path → m (Except DiskError Unit)

namespace Disk

variable {m : Type → Type} [Monad m] (disk : Disk m)

/-- An absolute path for one that may be relative. -/
def absolute (path : Path) : Path :=
  if path.isAbsolute then path else disk.workingDirectory.join path

/-- The text of a file. -/
def readText (path : Path) : m (Except DiskError String) := do
  match ← disk.read path with
  | .error e => return .error e
  | .ok bytes =>
    match String.fromUTF8? bytes with
    | some text => return .ok text
    | none => return .error .notText

end Disk

end CrossRef
