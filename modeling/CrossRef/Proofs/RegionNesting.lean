import CrossRef.Proofs.InsertedText
import Mathlib.Logic.Function.Iterate

/-! Which lines of a text are read. What decides is the stack of all `#if`s that are open at a line. The lexer never
looks through that stack: a region remembers, from when it was opened, whether the lines around it are active, and only
the top of the stack changes while it is open. So what is remembered stays what the stack below says. -/

namespace CrossRef.Syntax

/-- An `#if` that is still open, with the number of `#else` lines that belong to it so far. -/
structure OpenIf where
  condition : List Char
  flips : Nat
deriving DecidableEq, Repr

/-- The value of the condition, flipped once for each `#else`. -/
def OpenIf.value (defines : List String) (o : OpenIf) : Bool :=
  not^[o.flips] (conditionHolds defines o.condition)

/-- The `#if`s that are open behind a line, the innermost one first. An `#else` belongs to the innermost one, and an
`#endif` closes it. -/
def openBehind (stack : List OpenIf) (l : Line) : List OpenIf :=
  match Directive.ofLine? l.content, stack with
  | some (.opening condition), stack => ⟨condition, 0⟩ :: stack
  | some .alternative, o :: outer => { o with flips := o.flips + 1 } :: outer
  | some .closing, _ :: outer => outer
  | _, stack => stack

def openIfs (ls : List Line) : List OpenIf :=
  ls.foldl openBehind []

/-- A line of a text with its number and the `#if`s that are open at it. -/
structure NestedLine extends Line where
  number : Nat
  stack : List OpenIf
deriving DecidableEq, Repr

def nestFrom : (number : Nat) → (stack : List OpenIf) → List Line → List NestedLine
  | _, _, [] => []
  | number, stack, l :: ls => ⟨l, number, stack⟩ :: nestFrom (number + 1) (openBehind stack l) ls

def nestedLines (ls : List Line) : List NestedLine :=
  nestFrom 0 [] ls

/-- What is wrong with a directive that has no `#if` to belong to. -/
def Directive.strayFault? : Directive → Option LexFault
  | .opening _ => none
  | .alternative => some .strayElse
  | .closing => some .strayEndif

namespace NestedLine

def isRead (defines : List String) (l : NestedLine) : Bool :=
  l.stack.all (·.value defines) && (Directive.ofLine? l.content).isNone

/-- The tokens of the line lexed on its own, moved to where the line is. -/
def tokens (defines : List String) (l : NestedLine) : List Token :=
  if l.isRead defines then (lexLine 0 0 0 0 l.content).map (.moved l.start l.number) else []

/-- The directive of the line that has no `#if` to belong to, or else the literals that the line leaves open. -/
def diagnostics (defines : List String) (l : NestedLine) : List Diagnostic :=
  match Directive.ofLine? l.content with
  | some d => if l.stack.isEmpty then d.strayFault?.toList.map (⟨l.number, ·⟩) else []
  | none => openLiterals (l.tokens defines)

end NestedLine

def unclosed (line : Nat) (stack : List OpenIf) : List Diagnostic :=
  if stack.isEmpty then [] else [⟨line, .openRegion⟩]

def regionsOf (defines : List String) : List OpenIf → List Region
  | [] => []
  | o :: outer => ⟨outer.all (·.value defines), o.value defines⟩ :: regionsOf defines outer

variable {defines : List String}

private theorem isActive_regionsOf (stack : List OpenIf) :
    isActive (regionsOf defines stack) = stack.all (·.value defines) := by
  cases stack with
  | nil => rfl
  | cons o outer => rw [regionsOf, isActive, List.all_cons, Bool.and_comm]

private theorem value_flipped (o : OpenIf) : OpenIf.value defines { o with flips := o.flips + 1 } = !o.value defines :=
  Function.iterate_succ_apply' ..

theorem lexLine_at (number start : Nat) (content : List Char) :
    lexLine number start 0 0 content = (lexLine 0 0 0 0 content).map (.moved start number) :=
  lexLine_moved start number 0 0 0 0 content

/-- What the lexer does with one line is what the stack says of it. -/
theorem lexLines_cons (number : Nat) (stack : List OpenIf) (l : Line) (ls : List Line) :
    lexLines defines number (regionsOf defines stack) (l :: ls) =
      let here : NestedLine := ⟨l, number, stack⟩
      let after := lexLines defines (number + 1) (regionsOf defines (openBehind stack l)) ls
      ⟨here.tokens defines ++ after.tokens, here.diagnostics defines ++ after.diagnostics⟩ := by
  have active := @isActive_regionsOf defines stack
  cases found : Directive.ofLine? l.content with
  | none =>
    have kept : openBehind stack l = stack := by
      cases stack <;> simp only [openBehind, found]
    simp only [lexLines, found, active, kept, NestedLine.tokens, NestedLine.isRead, NestedLine.diagnostics,
      Option.isNone_none, Bool.and_true]
    split
    · rw [lexLine_at]
    · rfl
  | some d =>
    cases d with
    | opening condition =>
      simp [lexLines, found, active, openBehind, regionsOf, OpenIf.value, NestedLine.tokens, NestedLine.isRead,
        NestedLine.diagnostics, Directive.strayFault?]
    | alternative =>
      cases stack with
      | nil =>
        simp [lexLines, found, openBehind, regionsOf, NestedLine.tokens, NestedLine.isRead,
          NestedLine.diagnostics, Directive.strayFault?]
      | cons o outer =>
        simp [lexLines, found, openBehind, regionsOf, value_flipped, NestedLine.tokens, NestedLine.isRead,
          NestedLine.diagnostics]
    | closing =>
      cases stack with
      | nil =>
        simp [lexLines, found, openBehind, regionsOf, NestedLine.tokens, NestedLine.isRead,
          NestedLine.diagnostics, Directive.strayFault?]
      | cons o outer =>
        simp [lexLines, found, openBehind, regionsOf, NestedLine.tokens, NestedLine.isRead,
          NestedLine.diagnostics]

private theorem lexLines_eq (number : Nat) (stack : List OpenIf) (ls : List Line) :
    lexLines defines number (regionsOf defines stack) ls =
      ⟨(nestFrom number stack ls).flatMap (·.tokens defines),
        (nestFrom number stack ls).flatMap (·.diagnostics defines) ++
          unclosed (number + ls.length - 1) (ls.foldl openBehind stack)⟩ := by
  induction ls generalizing number stack with
  | nil => cases stack <;> rfl
  | cons l ls ih =>
    rw [lexLines_cons, ih, nestFrom, List.flatMap_cons, List.flatMap_cons, List.foldl_cons, List.length_cons,
      List.append_assoc, Nat.add_assoc, Nat.add_comm 1]

theorem lex_eq (text : String) (defines : List String) :
    lex text defines =
      ⟨(nestedLines (Line.ofText text.toList)).flatMap (·.tokens defines),
        (nestedLines (Line.ofText text.toList)).flatMap (·.diagnostics defines) ++
          unclosed ((Line.ofText text.toList).length - 1) (openIfs (Line.ofText text.toList))⟩ := by
  have whole := @lexLines_eq defines 0 [] (Line.ofText text.toList)
  rwa [Nat.zero_add] at whole

theorem nestFrom_append (number : Nat) (stack : List OpenIf) (before after : List Line) :
    nestFrom number stack (before ++ after) =
      nestFrom number stack before ++ nestFrom (number + before.length) (before.foldl openBehind stack) after := by
  induction before generalizing number stack with
  | nil => rfl
  | cons l before ih =>
    rw [List.cons_append, nestFrom, nestFrom, ih, List.cons_append, List.foldl_cons, List.length_cons, Nat.add_assoc,
      Nat.add_comm 1]

theorem mem_nestedLines {ls : List Line} {l : NestedLine} :
    l ∈ nestedLines ls ↔
      ∃ before after, ls = before ++ l.toLine :: after ∧ l.number = before.length ∧ l.stack = openIfs before := by
  suffices all : ∀ number stack, l ∈ nestFrom number stack ls ↔
      ∃ before after, ls = before ++ l.toLine :: after ∧ l.number = number + before.length ∧
        l.stack = before.foldl openBehind stack by
    simpa only [Nat.zero_add, nestedLines, openIfs] using all 0 []
  induction ls with
  | nil => simp [nestFrom]
  | cons first ls ih =>
    intro number stack
    rw [nestFrom, List.mem_cons, ih]
    constructor
    · rintro (rfl | ⟨before, after, rfl, place, inside⟩)
      · exact ⟨[], ls, rfl, rfl, rfl⟩
      · exact ⟨first :: before, after, rfl, by rw [place, List.length_cons, Nat.add_assoc, Nat.add_comm 1], inside⟩
    · rintro ⟨before, after, parts, place, inside⟩
      cases before with
      | nil =>
        obtain ⟨rfl, -⟩ := List.cons.inj parts
        left
        cases l
        simp_all
      | cons other before =>
        obtain ⟨rfl, rfl⟩ := List.cons.inj parts
        right
        exact ⟨before, after, rfl, by rw [place, List.length_cons, Nat.add_assoc, Nat.add_comm 1], inside⟩

private theorem number_of_mem_nestFrom {number : Nat} {stack : List OpenIf} {ls : List Line} {l : NestedLine}
    (member : l ∈ nestFrom number stack ls) : number ≤ l.number ∧ l.number < number + ls.length := by
  induction ls generalizing number stack with
  | nil => cases member
  | cons first ls ih =>
    rcases List.mem_cons.mp member with rfl | later
    · simp
    · have := ih later
      simp only [List.length_cons]
      omega

private theorem number_of_mem_tokens {l : NestedLine} {t : Token} (member : t ∈ l.tokens defines) :
    t.line = l.number := by
  unfold NestedLine.tokens at member
  split at member
  · obtain ⟨own, inside, rfl⟩ := List.mem_map.mp member
    obtain ⟨_, _, _, _, -, -, number, -⟩ := (lexes_lexLine ..).place_of_mem inside
    simp [Token.moved, number]
  · cases member

private theorem place_of_mem_diagnostics {l : NestedLine} {d : Diagnostic} (member : d ∈ l.diagnostics defines) :
    d.line = l.number ∧ d.fault ≠ .openRegion := by
  unfold NestedLine.diagnostics at member
  split at member
  · next directive found =>
    split at member
    · cases directive <;> simp [Directive.strayFault?] at member <;> simp [member]
    · cases member
  · obtain ⟨t, inside, made⟩ := List.mem_filterMap.mp member
    split at made
    · cases made
      exact ⟨number_of_mem_tokens inside, by simp⟩
    · cases made

private theorem filter_diagnostics_eq_nil {number : Nat} {lines : List NestedLine}
    (elsewhere : ∀ l ∈ lines, l.number ≠ number) :
    (lines.flatMap (·.diagnostics defines)).filter (·.line == number) = [] := by
  refine List.filter_eq_nil_iff.mpr fun d member same => ?_
  obtain ⟨l, listed, reported⟩ := List.mem_flatMap.mp member
  have place := (place_of_mem_diagnostics reported).1
  exact elsewhere l listed (place ▸ beq_iff_eq.mp same)

private theorem filter_diagnostics_eq_self {number : Nat} {lines : List NestedLine}
    (elsewhere : ∀ l ∈ lines, l.number ≠ number) :
    (lines.flatMap (·.diagnostics defines)).filter (·.line != number) = lines.flatMap (·.diagnostics defines) := by
  refine List.filter_eq_self.mpr fun d member => ?_
  obtain ⟨l, listed, reported⟩ := List.mem_flatMap.mp member
  have place := (place_of_mem_diagnostics reported).1
  simpa [place] using elsewhere l listed

/-- A line that leaves nothing open where nothing was open: what stands above and below it does not depend on it. -/
private theorem lexLines_around {before : List Line} (outside : openIfs before = []) {l : Line}
    (closed : openBehind [] l = []) (after : List Line) :
    lexLines defines 0 [] (before ++ l :: after) =
      let above := nestedLines before
      let here : NestedLine := ⟨l, before.length, []⟩
      let below := nestFrom (before.length + 1) [] after
      ⟨above.flatMap (·.tokens defines) ++ (here.tokens defines ++ below.flatMap (·.tokens defines)),
        above.flatMap (·.diagnostics defines) ++ (here.diagnostics defines ++ below.flatMap (·.diagnostics defines)) ++
          unclosed (before.length + after.length) (openIfs after)⟩ := by
  have whole := @lexLines_eq defines 0 [] (before ++ l :: after)
  rw [openIfs] at outside
  simp only [nestFrom_append, nestFrom, outside, closed, List.foldl_append, List.foldl_cons, List.flatMap_append,
    List.flatMap_cons, List.length_append, List.length_cons, Nat.zero_add] at whole
  exact whole

/-- A directive without an `#if` is reported once, at its line, and an empty line in its place leaves all else as it
is. -/
theorem stray_reported {before : List Line} (outside : openIfs before = []) {l : Line} {d : Directive} {fault : LexFault}
    (found : Directive.ofLine? l.content = some d) (stray : d.strayFault? = some fault) (after : List Line) :
    let lexed := lexLines defines 0 [] (before ++ l :: after)
    lexed.diagnostics.filter (·.line == before.length) = [⟨before.length, fault⟩] ∧
      lexLines defines 0 [] (before ++ ⟨l.start, []⟩ :: after) =
        ⟨lexed.tokens, lexed.diagnostics.filter (·.line != before.length)⟩ := by
  intro lexed
  have closed : openBehind [] l = [] := by
    cases d with
    | opening => cases stray
    | alternative => simp only [openBehind, found]
    | closing => simp only [openBehind, found]
  have silent : NestedLine.tokens defines ⟨l, before.length, []⟩ = [] := by
    simp [NestedLine.tokens, NestedLine.isRead, found]
  have reported : NestedLine.diagnostics defines ⟨l, before.length, []⟩ = [⟨before.length, fault⟩] := by
    simp [NestedLine.diagnostics, found, stray]
  have above : ∀ other ∈ nestedLines before, other.number ≠ before.length := by
    intro other member
    have := number_of_mem_nestFrom member
    omega
  have below : ∀ other ∈ nestFrom (before.length + 1) [] after, other.number ≠ before.length := by
    intro other member
    have := number_of_mem_nestFrom member
    omega
  -- The line is the last one only if nothing is open at the end.
  have last : ∀ d ∈ unclosed (before.length + after.length) (openIfs after), d.line ≠ before.length := by
    cases after with
    | nil => exact fun d member => nomatch member
    | cons next after =>
      intro d member
      unfold unclosed at member
      split at member
      · cases member
      · obtain rfl := List.mem_singleton.mp member
        simp
  have parts := @lexLines_around defines _ outside _ closed after
  simp only [silent, reported, List.nil_append, List.singleton_append] at parts
  have empty := @lexLines_around defines _ outside ⟨l.start, []⟩ rfl after
  simp only [lexed, parts, List.filter_append, List.filter_cons, beq_self_eq_true, bne_self_eq_false, if_true,
    filter_diagnostics_eq_nil above, filter_diagnostics_eq_nil below, filter_diagnostics_eq_self above,
    filter_diagnostics_eq_self below]
  constructor
  · have nothing : (unclosed (before.length + after.length) (openIfs after)).filter (·.line == before.length) = [] :=
      List.filter_eq_nil_iff.mpr fun d member same => last d member (beq_iff_eq.mp same)
    rw [nothing]
    rfl
  · have kept : (unclosed (before.length + after.length) (openIfs after)).filter (·.line != before.length) =
        unclosed (before.length + after.length) (openIfs after) :=
      List.filter_eq_self.mpr fun d member => bne_iff_ne.mpr (last d member)
    rw [kept, empty]
    rfl

/-- Lexing a text follows its nesting: the tokens are those of each line that is active and no directive, lexed on its own
and moved to its place, and a line is active exactly if all `#if`s that are open at it have the value true. A directive
without an `#if` is reported and otherwise ignored, and at the end it is reported whether some `#if` is still open. -/
theorem lex_follows_nesting (text : String) (defines : List String) :
    let ls := Line.ofText text.toList
    (lex text defines).tokens = (nestedLines ls).flatMap (·.tokens defines) ∧
    (lex text defines).diagnostics =
      (nestedLines ls).flatMap (·.diagnostics defines) ++ unclosed (ls.length - 1) (openIfs ls) ∧
    (∀ before l after d fault, ls = before ++ l :: after → openIfs before = [] →
      Directive.ofLine? l.content = some d → d.strayFault? = some fault →
        (lex text defines).diagnostics.filter (·.line == before.length) = [⟨before.length, fault⟩] ∧
        lexLines defines 0 [] (before ++ ⟨l.start, []⟩ :: after) =
          ⟨(lex text defines).tokens, (lex text defines).diagnostics.filter (·.line != before.length)⟩) ∧
    (lex text defines).diagnostics.filter (·.fault == .openRegion) =
      if openIfs ls = [] then [] else [⟨ls.length - 1, .openRegion⟩] := by
  intro ls
  have whole := lex_eq text defines
  refine ⟨congrArg Lexed.tokens whole, congrArg Lexed.diagnostics whole, ?_, ?_⟩
  · intro before l after d fault parts outside found stray
    have reported := @stray_reported defines _ outside _ _ _ found stray after
    rwa [← parts] at reported
  · have lines : ((nestedLines ls).flatMap (·.diagnostics defines)).filter (·.fault == .openRegion) = [] := by
      refine List.filter_eq_nil_iff.mpr fun d member same => ?_
      obtain ⟨l, -, inside⟩ := List.mem_flatMap.mp member
      exact (place_of_mem_diagnostics inside).2 (beq_iff_eq.mp same)
    rw [whole, List.filter_append, lines, List.nil_append]
    unfold unclosed
    cases openIfs ls <;> rfl

end CrossRef.Syntax

namespace CrossRef.Sample
open Syntax

/-- An `#endif` too many, one region inside another one, and an `#if` that stays open. -/
def regionText : String :=
  "#endif\n#if A\n#if !A\na\n#else\nb\n#endif\n#else\nc"

/-- The inner region is flipped to active lines before the outer one is flipped to inactive ones. -/
theorem inner_region_read :
    (lex regionText ["A"]).tokens = [⟨.word, ⟨28, 1⟩, 5, 0, "b"⟩] ∧
      (lex regionText ["A"]).diagnostics.filter (·.line == 0) = [⟨0, .strayEndif⟩] ∧
      (lex regionText ["A"]).diagnostics.filter (·.fault == .openRegion) = [⟨8, .openRegion⟩] := by
  obtain ⟨tokens, -, stray, last⟩ := lex_follows_nesting regionText ["A"]
  refine ⟨?_, ?_, ?_⟩
  · rw [tokens]
    decide
  · exact (stray [] ⟨0, "#endif".toList⟩ (Line.ofText regionText.toList).tail .closing .strayEndif (by decide) rfl
      (by decide) rfl).1
  · rw [last]
    decide

end CrossRef.Sample
