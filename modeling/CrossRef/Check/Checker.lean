import CrossRef.Check.Resolution

/-! Checking files and projects. A checker may keep state, so it answers in a monad; the plain one, which
only reads what it is given, answers in any. -/

namespace CrossRef

/-- The outcome of checking a file. There are no uses if the file is not one of the project's. -/
structure FileCheck where
  diagnostics : List Syntax.Diagnostic
  uses : Option (List Use)
deriving DecidableEq, Repr, Inhabited

/-- The outcome of checking a project. It is asked for the uses of one symbol at a time, and the checker decides
how it tells symbols apart. -/
structure ProjectCheck where
  usesOf : Symbol → List Use

structure Checker (m : Type → Type) where
  file : (path : Path) → (version : Nat) → (text : String) → Options → m (Except CheckError FileCheck)
  project : Options → m (Except CheckError ProjectCheck)

namespace Check

/-- Checks a text as a file of a project. The project's own copy of the file may differ from it. -/
def checkFile (path : Path) (text : String) (options : Options) : FileCheck :=
  let file := Analysis.ofText path text options.defines
  ⟨file.diagnostics,
    if options.contains path then some ((Environment.ofOptions options).uses file) else none⟩

/-- Checks all files of a project. -/
def checkProject (options : Options) : List Use :=
  let env := Environment.ofOptions options
  env.files.flatMap env.uses

/-- Answers from the uses in all files of a project, which are found once. -/
def projectCheck (options : Options) : ProjectCheck :=
  let uses := checkProject options
  ⟨(usesOf · uses)⟩

end Check

/-- The checker that never fails and remembers nothing. -/
def plainChecker {m : Type → Type} [Monad m] : Checker m where
  file path _ text options := pure (.ok (Check.checkFile path text options))
  project options := pure (.ok (Check.projectCheck options))

/-- The first use on a line that ends at a column and carries the last name of an island, provided that
the line's text has that name there. -/
def useAt? (uses : List Use) (line endColumn : Nat) (lineText : String) (island : List String) :
    Option Use := do
  let name ← island.getLast?
  uses.find? fun u =>
    let range := u.place.range
    range.start.line == line && range.stop.column == endColumn && u.symbol.name == name &&
      ((Span.ofBounds range.start.column range.stop.column).slice? lineText).any fun shown =>
        Text.occursIn name.toList shown.toList

end CrossRef
