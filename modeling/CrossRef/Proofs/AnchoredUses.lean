import CrossRef.Proofs.NamedPlaces
import CrossRef.Proofs.ResolutionOrder

/-! Every use that a check reports stands at an identifier of the text. The lexer, the marks, the index of lines
and the narrowing of spans each count positions on their own, in bytes, columns and lines; at an identifier all of
them agree. -/

namespace CrossRef
open Check Syntax

private theorem Check.Environment.token_of_use {options : Options} {path : Path} {text : String}
    {defines : List String} {u : Use}
    (reported : u ∈ (Environment.ofOptions options).uses (Analysis.ofText path text defines)) :
    ∃ t ∈ (lex text defines).tokens,
      t.isIdentifier = true ∧ u.place = ⟨path, t.range⟩ ∧ u.symbol.name = t.name := by
  obtain ⟨m, b, resolved, symbol, place⟩ := mem_uses reported
  obtain ⟨marked, named⟩ := name_of_resolution resolved
  obtain ⟨token, identifier⟩ := identifier_of_mark marked
  exact ⟨m.token, token, identifier, place, by rw [symbol, named]⟩

/-- The range of a reported use means the span of one identifier, which has the name of the symbol, which nothing
narrows, and which is on the line of the use from end to end. -/
theorem uses_anchored {options : Options} {path : Path} {text : String} {defines : List String} {u : Use}
    (reported : u ∈ (Environment.ofOptions options).uses (Analysis.ofText path text defines)) :
    ∃ t ∈ (lex text defines).tokens, t.isIdentifier = true ∧ u.place = ⟨path, t.range⟩ ∧
      (LineIndex.ofText text).spanOf? u.place.range = some t.span ∧
      (∀ other ∈ (lex text defines).tokens,
        (LineIndex.ofText text).spanOf? u.place.range = some other.span → other = t) ∧
      narrow text t.span = t.span ∧
      (∃ shown, t.span.slice? text = some shown ∧ unquote shown = u.symbol.name) ∧
      ∀ offset, t.span.start ≤ offset → offset ≤ t.span.stop →
        (LineIndex.ofText text).lineOf? offset = some u.place.range.start.line := by
  obtain ⟨t, token, identifier, place, named⟩ := Environment.token_of_use reported
  have known : ∀ other ∈ (lex text defines).tokens, other ∈ allTokens text :=
    fun other inside => (lex_sublist text defines).subset inside
  have here := known t token
  obtain ⟨_, _, _, _, _, -, -, -, -, means⟩ := place_of_mem_allTokens here
  have spanned : (LineIndex.ofText text).spanOf? u.place.range = some t.span := by rw [place, means]
  refine ⟨t, token, identifier, place, spanned, ?_, Rename.narrow_of_mem_allTokens here identifier, ?_, ?_⟩
  · intro other inside span
    apply eq_of_span (known other inside) here
    exact Option.some.inj (span.symm.trans spanned)
  · exact ⟨t.text, Rename.slice?_of_mem_allTokens here, named.symm⟩
  · intro offset first last
    rw [place]
    exact lineOf?_of_mem_allTokens here first last

namespace Sample

/-! Lines that end in a return, one of them left out, a literal with a letter of two bytes, and behind it a quoted
name with a point inside. -/

def remark : Document :=
  .ofText ⟨"Notes", .ofText "notes.ml"⟩ "#if X\r\nlet a = 1\r\n#endif\r\n\"é\" |> fun ``a.b`` -> 1\r\n"

def notes : Project := .ofDocuments "Notes" ⟨[], []⟩ [remark]

def parameter : Token := ⟨.quoted, ⟨38, 7⟩, 3, 12, "``a.b``"⟩

def parameterUse : Use :=
  ⟨symbolOf remark.path "" (Tally.empty.count ("", "a.b")) parameter .parameter .everywhere true,
    ⟨remark.path, parameter.range⟩, .definition⟩

theorem parameter_anchored :
    parameterUse ∈ (Environment.ofOptions (notes.options [])).uses (Analysis.ofText remark.path remark.text []) ∧
      ∃ t ∈ (lex remark.text []).tokens, t.isIdentifier = true ∧ parameterUse.place = ⟨remark.path, t.range⟩ ∧
        (LineIndex.ofText remark.text).spanOf? (.onLine 3 12 19) = some t.span ∧
        (∀ other ∈ (lex remark.text []).tokens,
          (LineIndex.ofText remark.text).spanOf? (.onLine 3 12 19) = some other.span → other = t) ∧
        narrow remark.text t.span = t.span ∧ (∃ shown, t.span.slice? remark.text = some shown ∧ unquote shown = "a.b") ∧
        ∀ offset, t.span.start ≤ offset → offset ≤ t.span.stop →
          (LineIndex.ofText remark.text).lineOf? offset = some 3 := by
  have reported : parameterUse ∈
      (Environment.ofOptions (notes.options [])).uses (Analysis.ofText remark.path remark.text []) :=
    List.mem_singleton.mpr rfl
  exact ⟨reported, uses_anchored reported⟩

end Sample

end CrossRef
