import CrossRef.Syntax.Token
import CrossRef.Syntax.Condition

/-! The tokens of a whole text. Directive lines have none, and neither have the lines of a region whose
condition fails. -/

namespace CrossRef.Syntax

inductive LexFault where
  | strayElse
  | strayEndif
  | openRegion
  | openLiteral
deriving DecidableEq, Repr

def LexFault.message : LexFault → String
  | .strayElse => "#else without matching #if"
  | .strayEndif => "#endif without matching #if"
  | .openRegion => "unterminated #if"
  | .openLiteral => "unterminated string literal"

structure Diagnostic where
  line : Nat
  fault : LexFault
deriving DecidableEq, Repr

structure Lexed where
  tokens : List Token
  diagnostics : List Diagnostic
deriving DecidableEq, Repr

/-- The literals of a line that are not closed on it. -/
def openLiterals (tokens : List Token) : List Diagnostic :=
  tokens.filterMap fun t => if t.kind = .literal false then some ⟨t.line, .openLiteral⟩ else none

/-- Lexes the lines from number `line` on, inside the given open regions. -/
def lexLines (defines : List String) : (line : Nat) → List Region → List Line → Lexed
  | line, regions, [] => ⟨[], if regions.isEmpty then [] else [⟨line - 1, .openRegion⟩]⟩
  | line, regions, l :: ls =>
    match Directive.ofLine? l.content with
    | some (.opening condition) =>
      lexLines defines (line + 1) (⟨isActive regions, conditionHolds defines condition⟩ :: regions) ls
    | some .alternative =>
      match regions with
      | region :: outer =>
        lexLines defines (line + 1) ({ region with chosen := !region.chosen } :: outer) ls
      | [] =>
        let after := lexLines defines (line + 1) [] ls
        { after with diagnostics := ⟨line, .strayElse⟩ :: after.diagnostics }
    | some .closing =>
      match regions with
      | _ :: outer => lexLines defines (line + 1) outer ls
      | [] =>
        let after := lexLines defines (line + 1) [] ls
        { after with diagnostics := ⟨line, .strayEndif⟩ :: after.diagnostics }
    | none =>
      let after := lexLines defines (line + 1) regions ls
      if isActive regions then
        let tokens := lexLine line l.start 0 0 l.content
        ⟨tokens ++ after.tokens, openLiterals tokens ++ after.diagnostics⟩
      else
        after

/-- Lexes a text in which the given names are defined. -/
def lex (text : String) (defines : List String) : Lexed :=
  lexLines defines 0 [] (Line.ofText text.toList)

end CrossRef.Syntax
