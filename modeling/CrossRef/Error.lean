import CrossRef.Path

/-! What can go wrong, and how it is put into words. That there is no symbol somewhere is not an error. -/

namespace CrossRef

inductive SolutionError where
  | duplicateProject (project : String)
  | unknownReference (project reference : String)
  | projectNotFound (project : String)
  | documentNotFound (project : String) (path : Path)
  | fileNotInSolution (path : Path)
  | invalidPosition (offset length : Nat)
  | invalidSpan (start stop length : Nat)
  | manifest (message : String)
  | fileTooLarge (path : Path) (megabytes limit : Nat)
  | binaryFile (path : Path)
  | io (message : String)
deriving DecidableEq, Repr

def SolutionError.message : SolutionError → String
  | duplicateProject project => "Duplicate project: " ++ project
  | unknownReference project reference =>
    "Project '" ++ project ++ "' references unknown project '" ++ reference ++ "'"
  | projectNotFound project => "Project not found: " ++ project
  | documentNotFound project path => "Document not found: " ++ project ++ ":" ++ path.text
  | fileNotInSolution path => "File is not part of the solution: " ++ path.text
  | invalidPosition offset length =>
    "Invalid position: offset " ++ toString offset ++ " is outside the document (length " ++
      toString length ++ ")"
  | invalidSpan start stop length =>
    "Invalid span: " ++ toString start ++ ".." ++ toString stop ++
      " runs past the document end (length " ++ toString length ++ ")"
  | manifest message => "Manifest error: " ++ message
  | fileTooLarge path megabytes limit =>
    "File too large (" ++ toString megabytes ++ "MB > " ++ toString limit ++ "MB limit): " ++ path.text
  | binaryFile path => "Cannot load binary file: " ++ path.text
  | io message => message

inductive CheckError where
  | failed (subject message : String)
  | sourceUnavailable (path : Path)
deriving DecidableEq, Repr

def CheckError.message : CheckError → String
  | failed subject message => "Type check failed for " ++ subject ++ ": " ++ message
  | sourceUnavailable path => "Source not available to the checker: " ++ path.text

inductive SettingsError where
  | malformed (message : String)
  | invalidValue (key message : String)
  | io (message : String)
deriving DecidableEq, Repr

def SettingsError.message : SettingsError → String
  | malformed message => "Config parse error: " ++ message
  | invalidValue key message => "Invalid value for '" ++ key ++ "': " ++ message
  | io message => message

inductive Error where
  | check (cause : CheckError)
  | solution (cause : SolutionError)
  | settings (cause : SettingsError)
  | cancelled
deriving DecidableEq, Repr

def Error.message : Error → String
  | check cause => cause.message
  | solution cause => cause.message
  | settings cause => cause.message
  | cancelled => "Operation cancelled"

end CrossRef
