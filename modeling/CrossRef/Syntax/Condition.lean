import CrossRef.Text.Blank
import CrossRef.Text.Split

/-! Conditional regions: the directive lines that open, flip and close them, and the meaning of a
condition. A condition is a list of alternatives, each a list of names that must be defined or, behind
an exclamation mark, must not be. -/

namespace CrossRef.Syntax

/-- Whether one term of a condition holds. -/
def termHolds (defines : List String) (term : List Char) : Bool :=
  match Text.trim (Text.stripBoth (fun c => c == '(' || c == ')') (Text.trim term)) with
  | '!' :: name => !defines.contains (String.ofList (Text.trim name))
  | name => defines.contains (String.ofList name)

/-- Whether a condition holds: some alternative has only terms that hold. -/
def conditionHolds (defines : List String) (condition : List Char) : Bool :=
  (Text.splitDoubled '|' condition).any fun alternative =>
    (Text.splitDoubled '&' alternative).all (termHolds defines)

inductive Directive where
  | opening (condition : List Char)
  | alternative
  | closing
deriving DecidableEq, Repr

/-- The directive that a line holds, if it holds one. -/
def Directive.ofLine? (line : List Char) : Option Directive :=
  match Text.trim line with
  | '#' :: 'i' :: 'f' :: c :: cs => if Text.isBlank c then some (.opening (Text.trim (c :: cs))) else none
  | ['#', 'e', 'l', 's', 'e'] => some .alternative
  | ['#', 'e', 'n', 'd', 'i', 'f'] => some .closing
  | _ => none

/-- An open region: whether the lines around it are active, and whether its current branch is chosen. -/
structure Region where
  outer : Bool
  chosen : Bool
deriving DecidableEq, Repr

/-- Whether lines are active inside the open regions, the innermost one first. -/
def isActive : List Region → Bool
  | [] => true
  | region :: _ => region.outer && region.chosen

end CrossRef.Syntax
