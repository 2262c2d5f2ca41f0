import CrossRef.Syntax.Condition
import Mathlib.Data.List.TakeWhile

/-! The meaning of written conditions. There is no grammar behind the reading of a condition: the text is cut at the
doubled signs, and each piece loses the parentheses and blanks at its ends. Here the conditions that people write are
given as data, with their blanks and parentheses, and the reading is shown to find what they mean. -/

namespace CrossRef.Syntax

open Text (isBlank splitDoubled stripBoth trim)

/-- A character that conditions are written with, apart from names and blanks. -/
def isOperator (c : Char) : Bool :=
  ['!', '&', '|', '(', ')'].contains c

def isParenthesis (c : Char) : Bool :=
  c == '(' || c == ')'

/-- Blanks that may stand anywhere between names and operators, possibly none. -/
structure Blanks where
  chars : List Char
  blank : ∀ c ∈ chars, isBlank c = true

structure Flag where
  chars : List Char
  filled : chars ≠ []
  solid : ∀ c ∈ chars, isBlank c = false
  plain : ∀ c ∈ chars, isOperator c = false

def Flag.name (flag : Flag) : String :=
  String.ofList flag.chars

/-- A name with the blanks around it. A negated one keeps the blanks between the exclamation mark and the name. -/
structure Term where
  before : Blanks
  negation : Option Blanks
  flag : Flag
  behind : Blanks

namespace Term

def core (term : Term) : List Char :=
  match term.negation with
  | none => term.flag.chars
  | some gap => '!' :: (gap.chars ++ term.flag.chars)

def chars (term : Term) : List Char :=
  term.before.chars ++ (term.core ++ term.behind.chars)

def isNegated (term : Term) : Bool :=
  term.negation.isSome

def holds (defines : List String) (term : Term) : Bool :=
  if term.isNegated then !defines.contains term.flag.name else defines.contains term.flag.name

end Term

/-- Terms with the doubled sign for a conjunction between them. -/
structure Conjunction where
  first : Term
  rest : List Term

namespace Conjunction

def terms (conjunction : Conjunction) : List Term :=
  conjunction.first :: conjunction.rest

def chars (conjunction : Conjunction) : List Char :=
  List.intercalate ['&', '&'] (conjunction.terms.map Term.chars)

/-- Whether every plain name is defined and no negated one is. -/
def Holds (defines : List String) (conjunction : Conjunction) : Prop :=
  (∀ term ∈ conjunction.terms, term.isNegated = false → term.flag.name ∈ defines) ∧
    ∀ term ∈ conjunction.terms, term.isNegated = true → term.flag.name ∉ defines

end Conjunction

def opening : Option Blanks → List Char
  | none => []
  | some before => before.chars ++ ['(']

def closing : Option Blanks → List Char
  | none => []
  | some behind => ')' :: behind.chars

structure Alternative where
  conjunction : Conjunction
  parentheses : Option (Blanks × Blanks)

def Alternative.chars (alternative : Alternative) : List Char :=
  opening (alternative.parentheses.map Prod.fst) ++
    (alternative.conjunction.chars ++ closing (alternative.parentheses.map Prod.snd))

/-- Conjunctions with the doubled sign for a disjunction between them. Either each of them may be in parentheses or all
of them together are. -/
inductive Condition where
  | separate (first : Alternative) (rest : List Alternative)
  | enclosed (before : Blanks) (first : Conjunction) (rest : List Conjunction) (behind : Blanks)

namespace Condition

def chars : Condition → List Char
  | separate first rest => List.intercalate ['|', '|'] ((first :: rest).map Alternative.chars)
  | enclosed before first rest behind =>
    opening (some before) ++
      (List.intercalate ['|', '|'] ((first :: rest).map Conjunction.chars) ++ closing (some behind))

def conjunctions : Condition → List Conjunction
  | separate first rest => (first :: rest).map Alternative.conjunction
  | enclosed _ first rest _ => first :: rest

end Condition

/-! ### What comes off a term -/

variable {defines : List String} {left right : List Char}

/-- What is taken off the front of a term: blanks, parentheses, blanks. -/
def clear (cs : List Char) : List Char :=
  ((cs.dropWhile isBlank).dropWhile isParenthesis).dropWhile isBlank

private theorem clear_of_blank {cs : List Char} (blank : ∀ c ∈ cs, isBlank c = true) : clear cs = [] := by
  rw [clear, List.dropWhile_eq_nil_iff.mpr blank]
  rfl

private theorem clear_parenthesis {outer inner : List Char} {c : Char} (parenthesis : isParenthesis c = true)
    (around : ∀ c ∈ outer, isBlank c = true) (within : ∀ c ∈ inner, isBlank c = true) :
    clear (outer ++ c :: inner) = [] := by
  have solid : ¬isBlank c = true := by
    simp only [isParenthesis, Bool.or_eq_true, beq_iff_eq] at parenthesis
    rcases parenthesis with rfl | rfl <;> decide
  rw [clear, List.dropWhile_append_of_pos around, List.dropWhile_cons_of_neg solid,
    List.dropWhile_cons_of_pos parenthesis, List.dropWhile_eq_nil_iff]
  exact fun c inside => within c ((List.dropWhile_sublist _).mem inside)

namespace Term

variable (term : Term)

theorem core_ne_nil : term.core ≠ [] := by
  unfold core
  split
  · exact term.flag.filled
  · simp

/-- Of a class without the exclamation mark and the characters of the name, nothing comes off the term itself. -/
theorem stripBoth_core {p : Char → Bool} (mark : p '!' = false) (free : ∀ c ∈ term.flag.chars, p c = false)
    (left right : List Char) :
    stripBoth p (left ++ (term.core ++ right.reverse)) =
      left.dropWhile p ++ (term.core ++ (right.dropWhile p).reverse) := by
  have first : term.core.head?.any p = false := by
    unfold core
    split
    · exact Text.any_head?_of_free free
    · exact mark
  have last : term.core.getLast?.any p = false := by
    unfold core
    split
    · exact Text.any_getLast?_append [] term.flag.filled free
    next gap _ => exact Text.any_getLast?_append ('!' :: gap.chars) term.flag.filled free
  rw [Text.stripBoth_append left _ term.core_ne_nil first last, List.reverse_reverse]

private theorem trim_cleared (front : clear left = []) (back : clear right = []) :
    trim (stripBoth isParenthesis (trim (left ++ (term.core ++ right.reverse)))) = term.core := by
  have parenthesisFree : ∀ c ∈ term.flag.chars, isParenthesis c = false := by
    intro c inside
    have plain := term.flag.plain c inside
    simp only [isOperator, List.contains_eq_mem, List.mem_cons, List.not_mem_nil, or_false, not_or,
      decide_eq_false_iff_not] at plain
    simp [isParenthesis, plain]
  simp only [trim, clear] at front back ⊢
  rw [term.stripBoth_core rfl term.flag.solid, term.stripBoth_core rfl parenthesisFree,
    term.stripBoth_core rfl term.flag.solid, front, back, List.nil_append, List.reverse_nil, List.append_nil]

private theorem termHolds_cleared (front : clear left = []) (back : clear right = []) :
    termHolds defines (left ++ (term.core ++ right.reverse)) = term.holds defines := by
  unfold termHolds
  have cleared := term.trim_cleared front back
  unfold isParenthesis at cleared
  rw [cleared]
  unfold core holds isNegated Flag.name
  cases negation : term.negation with
  | none =>
    simp only [Option.isSome_none, Bool.false_eq_true, if_false]
    split
    next name shape =>
      have plain := term.flag.plain '!' (by simp [shape])
      cases plain
    next => rfl
  | some gap =>
    have bare : trim (gap.chars ++ term.flag.chars) = term.flag.chars := by
      have stripped := Text.stripBoth_append gap.chars [] term.flag.filled
        (Text.any_head?_of_free term.flag.solid) (Text.any_getLast?_append [] term.flag.filled term.flag.solid)
      rw [List.append_nil, List.dropWhile_eq_nil_iff.mpr gap.blank] at stripped
      simpa [trim] using stripped
    simp [bare]

end Term

/-! ### Parentheses around terms -/

private theorem clear_opening (before : Option Blanks) (blanks : Blanks) :
    clear (opening before ++ blanks.chars) = [] := by
  cases before with
  | none => exact clear_of_blank blanks.blank
  | some before =>
    rw [opening, List.append_assoc]
    exact clear_parenthesis rfl before.blank blanks.blank

private theorem clear_closing (behind : Option Blanks) (blanks : Blanks) :
    clear (blanks.chars ++ closing behind).reverse = [] := by
  have turned : ∀ blanks : Blanks, ∀ c ∈ blanks.chars.reverse, isBlank c = true :=
    fun blanks c inside => blanks.blank c (List.mem_reverse.mp inside)
  cases behind with
  | none =>
    rw [closing, List.append_nil]
    exact clear_of_blank (turned blanks)
  | some behind =>
    rw [closing, List.reverse_append, List.reverse_cons, List.append_assoc]
    exact clear_parenthesis rfl (turned behind) (turned blanks)

private theorem termHolds_chars (term : Term) (before behind : Option Blanks) :
    termHolds defines (opening before ++ (term.chars ++ closing behind)) = term.holds defines := by
  have read : termHolds defines ((opening before ++ term.before.chars) ++
      (term.core ++ (term.behind.chars ++ closing behind).reverse.reverse)) = term.holds defines :=
    term.termHolds_cleared (clear_opening before term.before) (clear_closing behind term.behind)
  rw [List.reverse_reverse] at read
  rw [← read, Term.chars]
  simp only [List.append_assoc]

/-! ### Cutting at the signs between pieces -/

def isConnective (c : Char) : Bool :=
  c == '&' || c == '|'

variable {sign : Char} (connective : isConnective sign = true)
include connective

private theorem Blanks.not_mem (blanks : Blanks) : sign ∉ blanks.chars := by
  intro inside
  have blank := blanks.blank sign inside
  simp only [isConnective, Bool.or_eq_true, beq_iff_eq] at connective
  rcases connective with rfl | rfl <;> cases blank

private theorem not_mem_opening (before : Option Blanks) : sign ∉ opening before := by
  cases before with
  | none => exact List.not_mem_nil
  | some before =>
    rw [opening, List.mem_append, List.mem_singleton]
    rintro (inside | rfl)
    · exact before.not_mem connective inside
    · cases connective

private theorem not_mem_closing (behind : Option Blanks) : sign ∉ closing behind := by
  cases behind with
  | none => exact List.not_mem_nil
  | some behind =>
    rw [closing, List.mem_cons]
    rintro (rfl | inside)
    · cases connective
    · exact behind.not_mem connective inside

private theorem Term.not_mem_chars (term : Term) : sign ∉ term.chars := by
  have flagFree : sign ∉ term.flag.chars := by
    intro inside
    have plain := term.flag.plain sign inside
    simp only [isConnective, Bool.or_eq_true, beq_iff_eq] at connective
    rcases connective with rfl | rfl <;> cases plain
  have coreFree : sign ∉ term.core := by
    unfold core
    split
    · exact flagFree
    next gap _ =>
      rw [List.mem_cons, List.mem_append]
      rintro (rfl | inside | inside)
      · cases connective
      · exact gap.not_mem connective inside
      · exact flagFree inside
  rw [chars, List.mem_append, List.mem_append]
  rintro (inside | inside | inside)
  · exact term.before.not_mem connective inside
  · exact coreFree inside
  · exact term.behind.not_mem connective inside

omit connective in
private theorem Conjunction.not_mem_chars (conjunction : Conjunction) : '|' ∉ conjunction.chars := by
  apply Text.not_mem_intercalate (by decide)
  intro piece inside
  obtain ⟨term, -, rfl⟩ := List.mem_map.mp inside
  exact term.not_mem_chars rfl

/-- Cutting at a doubled sign gives back the pieces that were joined with it, whatever encloses all of them: if each
piece is read as its value, with what encloses them and without it, then so is the list of them. -/
theorem map_splitDoubled {α β : Type} {chars : α → List Char} {read : List Char → β} {value : α → β}
    (first : α) (rest : List α) {before behind : Option Blanks} (free : ∀ item ∈ first :: rest, sign ∉ chars item)
    (reads : ∀ item ∈ first :: rest, ∀ left ∈ [none, before], ∀ right ∈ [none, behind],
      read (opening left ++ (chars item ++ closing right)) = value item) :
    (splitDoubled sign (opening before ++
      (List.intercalate [sign, sign] ((first :: rest).map chars) ++ closing behind))).map read =
        (first :: rest).map value := by
  induction rest generalizing first before with
  | nil =>
    have whole : sign ∉ opening before ++ (chars first ++ closing behind) := by
      simp [not_mem_opening connective, not_mem_closing connective, free first]
    simpa [Text.splitDoubled_of_not_mem whole] using reads first (by simp) before (by simp) behind (by simp)
  | cons second rest ih =>
    have piece : sign ∉ opening before ++ chars first := by
      simp [not_mem_opening connective, free first]
    -- What is in front of all pieces stays with the first one, so the others have nothing before them.
    have deeper := @ih second none (fun item inside => free item (by simp [inside])) (by
      intro item inside left leftmost
      obtain rfl : left = none := by simpa using leftmost
      exact reads item (by simp [inside]) none (by simp))
    have front := reads first (by simp) before (by simp) none (by simp)
    rw [opening, List.nil_append] at deeper
    rw [closing, List.append_nil] at front
    rw [List.map_cons (l := second :: rest), List.map_cons (l := second :: rest), ← deeper, ← front]
    have parted : opening before ++ (List.intercalate [sign, sign] (chars first :: (second :: rest).map chars) ++
        closing behind) = (opening before ++ chars first) ++ sign :: sign ::
          (List.intercalate [sign, sign] ((second :: rest).map chars) ++ closing behind) := by
      rw [List.map_cons, List.intercalate_cons_cons]
      simp only [List.append_assoc, List.cons_append, List.nil_append]
    rw [parted, Text.splitDoubled_append_cons piece, List.map_cons]

omit connective

/-! ### The meaning -/

variable (defines)

private theorem all_termHolds (conjunction : Conjunction) (before behind : Option Blanks) :
    (splitDoubled '&' (opening before ++ (conjunction.chars ++ closing behind))).all (termHolds defines) =
      conjunction.terms.all (Term.holds defines) := by
  have terms : (splitDoubled '&' (opening before ++ (conjunction.chars ++ closing behind))).map (termHolds defines) =
      conjunction.terms.map (Term.holds defines) :=
    map_splitDoubled rfl conjunction.first conjunction.rest (fun term _ => term.not_mem_chars rfl)
      (fun term _ left _ right _ => termHolds_chars term left right)
  have whole := congrArg (List.all · id) terms
  simp only [List.all_map, Function.id_comp] at whole
  exact whole

private theorem Conjunction.all_holds (conjunction : Conjunction) :
    conjunction.terms.all (Term.holds defines) = true ↔ conjunction.Holds defines := by
  rw [List.all_eq_true, Holds, ← forall₂_and]
  refine forall₂_congr fun term _ => ?_
  cases negated : term.isNegated <;> simp [Term.holds, negated]

private theorem Alternative.not_mem_chars (alternative : Alternative) : '|' ∉ alternative.chars := by
  rw [chars, List.mem_append, List.mem_append]
  rintro (inside | inside | inside)
  · exact not_mem_opening rfl _ inside
  · exact alternative.conjunction.not_mem_chars inside
  · exact not_mem_closing rfl _ inside

private theorem conditionHolds_chars (condition : Condition) :
    conditionHolds defines condition.chars =
      condition.conjunctions.any fun conjunction => conjunction.terms.all (Term.holds defines) := by
  let read := fun piece => (splitDoubled '&' piece).all (termHolds defines)
  let value := fun conjunction : Conjunction => conjunction.terms.all (Term.holds defines)
  have pieces : (splitDoubled '|' condition.chars).map read = condition.conjunctions.map value := by
    cases condition with
    | separate first rest =>
      have parted : (splitDoubled '|' (opening none ++
          (List.intercalate ['|', '|'] ((first :: rest).map Alternative.chars) ++ closing none))).map read =
            (first :: rest).map fun alternative => value alternative.conjunction := by
        refine map_splitDoubled rfl first rest (fun alternative _ => alternative.not_mem_chars) ?_
        intro alternative _ left leftmost right rightmost
        simp only [List.mem_cons, List.not_mem_nil, or_self, or_false] at leftmost rightmost
        rw [leftmost, rightmost, opening, closing, List.nil_append, List.append_nil]
        exact all_termHolds defines alternative.conjunction _ _
      rw [opening, closing, List.nil_append, List.append_nil] at parted
      rw [Condition.chars, Condition.conjunctions, List.map_map]
      exact parted
    | enclosed before first rest behind =>
      exact map_splitDoubled rfl first rest (fun conjunction _ => conjunction.not_mem_chars)
        (fun conjunction _ left _ right _ => all_termHolds defines conjunction left right)
  have whole := congrArg (List.any · id) pieces
  simp only [List.any_map, Function.id_comp] at whole
  exact whole

/-- A written condition holds for some defined names exactly if one of its conjunctions does: all its plain names are
defined and none of its negated ones. Blanks and parentheses around the conjunctions, or around the whole, say nothing. -/
theorem conditionHolds_iff (condition : Condition) :
    conditionHolds defines condition.chars = true ↔
      ∃ conjunction ∈ condition.conjunctions, conjunction.Holds defines := by
  rw [conditionHolds_chars, List.any_eq_true]
  refine exists_congr fun conjunction => and_congr_right fun _ => ?_
  exact conjunction.all_holds defines

end CrossRef.Syntax

namespace CrossRef.Sample
open Syntax

def noBlanks : Blanks :=
  ⟨[], List.forall_mem_nil _⟩

def oneBlank : Blanks :=
  ⟨[' '], List.forall_mem_singleton.mpr rfl⟩

def flag (c : Char) (solid : Text.isBlank c = false) (plain : isOperator c = false) : Flag where
  chars := [c]
  filled := List.cons_ne_nil _ _
  solid := List.forall_mem_singleton.mpr solid
  plain := List.forall_mem_singleton.mpr plain

def choice : Condition :=
  .separate ⟨⟨⟨noBlanks, none, flag 'A' rfl rfl, oneBlank⟩, [⟨oneBlank, some noBlanks, flag 'B' rfl rfl, noBlanks⟩]⟩,
    some (noBlanks, oneBlank)⟩ [⟨⟨⟨oneBlank, none, flag 'C' rfl rfl, noBlanks⟩, []⟩, none⟩]

example : choice.chars = "(A && !B) || C".toList ∧ conditionHolds ["A"] choice.chars = true ∧
    conditionHolds ["A", "B"] choice.chars = false := by
  decide

end CrossRef.Sample
