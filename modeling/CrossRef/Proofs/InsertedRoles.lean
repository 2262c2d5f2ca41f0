import CrossRef.Check.Analysis
import CrossRef.Proofs.InsertedText
import Mathlib.Data.List.Forall2

/-! The roles of tokens below other ones. What the reader is in the middle of at the end of a text is ended by a
declaration of the module on a later line, unless it is a `fun` that still waits for its arrow. From that
declaration on, the same names are bound and the same ones refer to others as if nothing stood above. Only what a
reference is used for may be another thing, because an attribute may be open. -/

namespace CrossRef.Syntax.Token

variable (bytes lines : Nat) (t : Token)

@[simp] theorem kind_moved : (t.moved bytes lines).kind = t.kind := rfl

@[simp] theorem line_moved : (t.moved bytes lines).line = lines + t.line := rfl

@[simp] theorem column_moved : (t.moved bytes lines).column = t.column := rfl

@[simp] theorem name_moved : (t.moved bytes lines).name = t.name := rfl

@[simp] theorem isIdentifier_moved : (t.moved bytes lines).isIdentifier = t.isIdentifier := rfl

@[simp] theorem isKeyword_moved (word : String) : (t.moved bytes lines).isKeyword word = t.isKeyword word := rfl

@[simp] theorem isPunct_moved (sign : String) : (t.moved bytes lines).isPunct sign = t.isPunct sign := rfl

@[simp] theorem touches_moved (next : Token) :
    (t.moved bytes lines).touches (next.moved bytes lines) = t.touches next := by
  rw [touches, touches, Bool.eq_iff_iff, beq_iff_eq, beq_iff_eq]
  simp only [moved, Span.moved, Span.stop]
  omega

end CrossRef.Syntax.Token

namespace CrossRef.Check
open Syntax

/-- Whether an arrow, its two signs next to each other, stands among some tokens. -/
def hasArrow : List Token → Bool
  | [] => false
  | t :: ts => isPair "-" ">" t ts || hasArrow ts

def endsLambdas : List Token → Bool
  | [] => true
  | t :: ts => (!t.isKeyword "fun" || hasArrow ts) && endsLambdas ts

/-- The words that may stand between `let` or `type` and the name. -/
def isModifier (t : Token) : Bool :=
  t.isKeyword "rec" || t.isKeyword "mutable" || t.isKeyword "private" || t.isKeyword "internal"

def access? (t : Token) : Option Access :=
  if t.isKeyword "private" then some .ownFile
  else if t.isKeyword "internal" then some .ownProject
  else none

def namesNext : List Token → Bool
  | [] => false
  | t :: ts =>
    if t.isKeyword "rec" || t.isKeyword "mutable" || t.isKeyword "private" || t.isKeyword "internal" then namesNext ts
    else t.isIdentifier

/-- Whether tokens begin with a declaration of the module that binds a name. -/
def declaresFirst : List Token → Bool
  | [] => false
  | t :: ts => startsTopLevel t && namesNext ts

/-- Roles that differ at most in what a reference is used for. -/
inductive Role.Alike : Role → Role → Prop where
  | same (role : Role) : Role.Alike role role
  | references (kind other : Occurrence) : Role.Alike (.reference kind) (.reference other)

def Mode.moved (lines : Nat) : Mode → Mode
  | .parameters line => .parameters (lines + line)
  | mode => mode

def Mode.namesTop : Mode → Bool
  | .header _ isTop _ => isTop
  | _ => false

structure ReadAlike (lines : Nat) (x y : Role × ReaderState) : Prop where
  role : x.1.Alike y.1
  mode : y.2.mode = x.2.mode.moved lines

section moved

variable (bytes lines : Nat) (previous : Option Token) (t : Token) (rest : List Token)

private theorem isPair_moved (first second : String) :
    isPair first second (t.moved bytes lines) (rest.map (.moved bytes lines)) = isPair first second t rest := by
  cases rest <;> simp [isPair]

private theorem hasParameter_moved (line : Nat) :
    hasParameter (lines + line) (t.moved bytes lines) (rest.map (.moved bytes lines)) = hasParameter line t rest := by
  induction rest generalizing t with
  | nil => rfl
  | cons next rest ih => simp [hasParameter, ih]

private theorem referenceRole_alike (inAttribute another : Bool) (other : Option Token) :
    (referenceRole inAttribute previous t rest).Alike
      (referenceRole another other (t.moved bytes lines) (rest.map (.moved bytes lines))) := by
  have dot : ((rest.map (.moved bytes lines)).head?.any fun next : Token =>
      next.kind == .dot && (t.moved bytes lines).touches next) =
        rest.head?.any fun next => next.kind == .dot && t.touches next := by
    cases rest <;> simp
  simp only [referenceRole, dot]
  split
  · exact .same _
  · split_ifs <;> exact .references ..

private theorem parameterRole_alike :
    (parameterRole previous t rest).Alike
      (parameterRole (previous.map (.moved bytes lines)) (t.moved bytes lines) (rest.map (.moved bytes lines))) := by
  have colon : (previous.map (.moved bytes lines)).any (fun p : Token => p.isPunct ":") =
      previous.any (·.isPunct ":") := by
    cases previous <;> simp
  simp only [parameterRole, Token.isIdentifier_moved, colon]
  split
  · exact .same _
  · split
    · exact referenceRole_alike ..
    · exact .same _

private theorem readPlain_alike (inAttribute another : Bool) (other : Option Token) :
    ReadAlike lines (readPlain inAttribute previous t rest)
      (readPlain another other (t.moved bytes lines) (rest.map (.moved bytes lines))) := by
  simp only [readPlain, Token.isKeyword_moved, Token.column_moved, isPair_moved]
  split
  · exact ⟨.same _, rfl⟩
  · split
    · exact ⟨.same _, rfl⟩
    · split
      · exact ⟨.same _, rfl⟩
      · split
        · exact ⟨.same _, rfl⟩
        · by_cases identifier : t.isIdentifier = true
          · have below : (t.moved bytes lines).isIdentifier = true := identifier
            rw [if_pos identifier, if_pos below]
            exact ⟨referenceRole_alike .., rfl⟩
          · have below : ¬(t.moved bytes lines).isIdentifier = true := identifier
            rw [if_neg identifier, if_neg below]
            exact ⟨.same _, rfl⟩

private theorem read_alike {state below : ReaderState} (same : below.mode = state.mode.moved lines) :
    ReadAlike lines (read state previous t rest)
      (read below (previous.map (.moved bytes lines)) (t.moved bytes lines) (rest.map (.moved bytes lines))) := by
  have plain := readPlain_alike bytes lines previous t rest state.inAttribute below.inAttribute
    (previous.map (.moved bytes lines))
  cases mode : state.mode with
  | plain =>
    rw [mode] at same
    simp only [read, mode, same, Mode.moved]
    exact plain
  | header isType isTop access =>
    rw [mode] at same
    simp only [read, mode, same, Mode.moved, Token.isKeyword_moved, Token.isIdentifier_moved, Token.line_moved,
      hasParameter_moved]
    split
    · exact ⟨.same _, by simp only [same, mode, Mode.moved]⟩
    · split
      · exact ⟨.same _, rfl⟩
      · split
        · exact ⟨.same _, rfl⟩
        · by_cases identifier : t.isIdentifier = true
          · rw [if_pos identifier, if_pos identifier]
            split
            · exact ⟨.same _, rfl⟩
            · exact ⟨.same _, rfl⟩
          · rw [if_neg identifier, if_neg identifier]
            exact plain
  | parameters line =>
    rw [mode] at same
    have lines_eq : (lines + t.line ≠ lines + line) = (t.line ≠ line) := by simp
    simp only [read, mode, same, Mode.moved, Token.isPunct_moved, Token.line_moved, lines_eq]
    split
    · exact plain
    · exact ⟨parameterRole_alike .., by simp only [same, mode, Mode.moved]⟩
  | lambda =>
    rw [mode] at same
    simp only [read, mode, same, Mode.moved, isPair_moved]
    split
    · exact plain
    · exact ⟨parameterRole_alike .., by simp only [same, mode, Mode.moved]⟩

end moved

/-- A token with its role, and the same token below a text. -/
structure RoleFollows (bytes lines : Nat) (a b : Token × Role) : Prop where
  token : b.1 = a.1.moved bytes lines
  role : a.2.Alike b.2

private theorem rolesFrom_alike (bytes lines : Nat) {state below : ReaderState}
    (same : below.mode = state.mode.moved lines) (previous : Option Token) (tokens : List Token) :
    List.Forall₂ (RoleFollows bytes lines) (rolesFrom state previous tokens)
      (rolesFrom below (previous.map (.moved bytes lines)) (tokens.map (.moved bytes lines))) := by
  induction tokens generalizing state below previous with
  | nil => exact .nil
  | cons t rest ih =>
    obtain ⟨role, mode⟩ := read_alike bytes lines previous t rest same
    exact .cons ⟨rfl, role⟩ (ih mode (some t))

section above

variable {state : ReaderState} {previous : Option Token} {t : Token} {rest : List Token}

private theorem lambda_of_readPlain {inAttribute : Bool}
    (waits : (readPlain inAttribute previous t rest).2.mode = .lambda) : t.isKeyword "fun" = true := by
  by_contra other
  simp only [readPlain, if_neg other] at waits
  split_ifs at waits

private theorem readPlain_not_parameters {inAttribute : Bool} {line : Nat} :
    (readPlain inAttribute previous t rest).2.mode ≠ .parameters line := by
  unfold readPlain
  split_ifs <;> simp

private theorem lambda_of_read (waits : (read state previous t rest).2.mode = .lambda) :
    t.isKeyword "fun" = true ∨ state.mode = .lambda ∧ isPair "-" ">" t rest = false := by
  cases mode : state.mode with
  | plain =>
    simp only [read, mode] at waits
    exact .inl (lambda_of_readPlain waits)
  | header isType isTop access =>
    simp only [read, mode] at waits
    split_ifs at waits
    · rw [mode] at waits
      cases waits
    · exact .inl (lambda_of_readPlain waits)
  | parameters line =>
    simp only [read, mode] at waits
    split at waits
    · exact .inl (lambda_of_readPlain waits)
    · rw [mode] at waits
      cases waits
  | lambda =>
    simp only [read, mode] at waits
    split at waits
    · exact .inl (lambda_of_readPlain waits)
    · rename_i other
      exact .inr ⟨rfl, by simpa using other⟩

theorem parameters_of_read {line : Nat} (behind : (read state previous t rest).2.mode = .parameters line) :
    line = t.line ∨ state.mode = .parameters line := by
  cases mode : state.mode with
  | plain =>
    simp only [read, mode] at behind
    exact absurd behind readPlain_not_parameters
  | header isType isTop access =>
    simp only [read, mode] at behind
    split at behind
    · rw [mode] at behind
      cases behind
    · split at behind
      · cases behind
      · split at behind
        · cases behind
        · split at behind
          · split at behind
            · cases behind
            · cases behind
              exact .inl rfl
          · exact absurd behind readPlain_not_parameters
  | parameters number =>
    simp only [read, mode] at behind
    split at behind
    · exact absurd behind readPlain_not_parameters
    · exact .inr (mode ▸ behind)
  | lambda =>
    simp only [read, mode] at behind
    split at behind
    · exact absurd behind readPlain_not_parameters
    · rw [mode] at behind
      cases behind

private theorem isKeyword_of_ne {word other : String} (keyword : t.isKeyword word = true) (different : word ≠ other) :
    t.isKeyword other = false := by
  rw [Token.isKeyword, Bool.and_eq_true, beq_iff_eq, beq_iff_eq] at keyword
  rw [Token.isKeyword, keyword.2, beq_eq_false_iff_ne.mpr different, Bool.and_false]

theorem kind_of_isKeyword {word : String} (keyword : t.isKeyword word = true) : t.kind = .keyword := by
  rw [Token.isKeyword, Bool.and_eq_true, beq_iff_eq] at keyword
  exact keyword.1

theorem isIdentifier_of_keyword (keyword : t.kind = .keyword) : t.isIdentifier = false := by
  rw [Token.isIdentifier, keyword]
  rfl

/-- A declaration ends whatever else is open. -/
theorem read_declaration (declares : (t.isKeyword "let" || t.isKeyword "type") = true)
    (arrived : state.mode ≠ .lambda) (later : ∀ line, state.mode = .parameters line → t.line ≠ line) :
    read state previous t rest =
      (.other, ⟨state.inAttribute, .header (t.isKeyword "type") (t.column == 0) .everywhere⟩) := by
  have plain : readPlain state.inAttribute previous t rest =
      (.other, ⟨state.inAttribute, .header (t.isKeyword "type") (t.column == 0) .everywhere⟩) := if_pos declares
  obtain ⟨word, keyword, differs⟩ : ∃ word, t.isKeyword word = true ∧ (word = "let" ∨ word = "type") := by
    rcases Bool.or_eq_true_iff.mp declares with binds | types
    · exact ⟨_, binds, .inl rfl⟩
    · exact ⟨_, types, .inr rfl⟩
  have other : ∀ modifier, modifier ≠ "let" → modifier ≠ "type" → t.isKeyword modifier = false := by
    intro modifier first second
    refine isKeyword_of_ne keyword ?_
    rcases differs with rfl | rfl
    · exact first.symm
    · exact second.symm
  cases mode : state.mode with
  | plain =>
    simp only [read, mode]
    exact plain
  | header isType isTop access =>
    simp [read, mode, other, isIdentifier_of_keyword (kind_of_isKeyword keyword), plain]
  | parameters line =>
    simp only [read, mode]
    rw [if_pos (.inl (later line mode)), plain]
  | lambda => exact absurd mode arrived

theorem kind_of_isModifier (modifier : isModifier t = true) : t.kind = .keyword := by
  simp only [isModifier, Bool.or_eq_true] at modifier
  rcases modifier with ((word | word) | word) | word <;> exact kind_of_isKeyword word

theorem isKeyword_of_identifier (named : t.isIdentifier = true) (word : String) : t.isKeyword word = false := by
  by_contra keyword
  rw [isIdentifier_of_keyword (kind_of_isKeyword (eq_true_of_ne_false keyword))] at named
  cases named

/-- A word between `let` or `type` and the name changes at most the access. -/
theorem read_modifier {inAttribute isType isTop : Bool} {access : Access} (modifier : isModifier t = true) :
    read ⟨inAttribute, .header isType isTop access⟩ previous t rest =
      (.other, ⟨inAttribute, .header isType isTop ((access? t).getD access)⟩) := by
  have keyword := kind_of_isModifier modifier
  simp only [isModifier, Token.isKeyword, keyword, beq_self_eq_true, Bool.true_and, Bool.or_eq_true,
    beq_iff_eq] at modifier
  rcases modifier with ((text | text) | text) | text <;> simp [read, access?, Token.isKeyword, keyword, text]

theorem read_name {inAttribute isType isTop : Bool} {access : Access} (named : t.isIdentifier = true) :
    ∃ kind mode, read ⟨inAttribute, .header isType isTop access⟩ previous t rest =
      (.binder kind access !isTop, ⟨inAttribute, mode⟩) ∧ mode.namesTop = false := by
  have other : ∀ word, t.isKeyword word = false := fun word => isKeyword_of_identifier named word
  cases isType with
  | true => exact ⟨.type, .plain, by simp [read, other, named], rfl⟩
  | false => exact ⟨if hasParameter t.line t rest then .function else .value, .parameters t.line,
      by simp [read, other, named], rfl⟩

end above

/-- What holds while the tokens of a text are read: an arrow is still to come if one is waited for, and no line from
`limit` on has been reached. -/
structure Settles (limit : Nat) (state : ReaderState) (tokens : List Token) : Prop where
  lambdas : endsLambdas tokens = true
  waiting : state.mode = .lambda → hasArrow tokens = true
  started : ∀ line, state.mode = .parameters line → line < limit
  lines : ∀ t ∈ tokens, t.line < limit

theorem isPair_append {first second : String} {t : Token} {tokens : List Token}
    (pair : isPair first second t tokens = true) (more : List Token) : isPair first second t (tokens ++ more) = true := by
  cases tokens with
  | nil => simp [isPair] at pair
  | cons next rest => exact pair

theorem Settles.read {limit : Nat} {state : ReaderState} {t : Token} {tokens : List Token}
    (settles : Settles limit state (t :: tokens)) (previous : Option Token) (more : List Token) :
    Settles limit (Check.read state previous t (tokens ++ more)).2 tokens := by
  have lambdas := settles.lambdas
  rw [endsLambdas, Bool.and_eq_true, Bool.or_eq_true] at lambdas
  refine ⟨lambdas.2, ?_, ?_, fun u inside => settles.lines u (List.mem_cons_of_mem _ inside)⟩
  · intro waits
    rcases lambda_of_read waits with here | ⟨before, other⟩
    · exact lambdas.1.resolve_left (by simp [here])
    · have arrow := settles.waiting before
      rw [hasArrow, Bool.or_eq_true] at arrow
      refine arrow.resolve_left fun pair => ?_
      rw [isPair_append pair more] at other
      cases other
  · intro line behind
    rcases parameters_of_read behind with rfl | before
    · exact settles.lines t (List.mem_cons_self ..)
    · exact settles.started line before

/-- The state in which the reader comes to `more`, behind some tokens. -/
def stateBehind (state : ReaderState) (previous : Option Token) : (tokens more : List Token) → ReaderState
  | [], _ => state
  | t :: tokens, more => stateBehind (read state previous t (tokens ++ more)).2 (some t) tokens more

theorem rolesFrom_append (state : ReaderState) (previous : Option Token) (tokens more : List Token) :
    ∃ front last, rolesFrom state previous (tokens ++ more) =
      front ++ rolesFrom (stateBehind state previous tokens more) last more ∧ front.map (·.1) = tokens := by
  induction tokens generalizing state previous with
  | nil => exact ⟨[], previous, rfl, rfl⟩
  | cons t tokens ih =>
    obtain ⟨front, last, roles, same⟩ := ih (read state previous t (tokens ++ more)).2 (some t)
    refine ⟨(t, (read state previous t (tokens ++ more)).1) :: front, last, ?_, ?_⟩
    · exact congrArg (_ :: ·) roles
    · rw [List.map_cons, same]

theorem Settles.stateBehind {limit : Nat} {state : ReaderState} {tokens : List Token}
    (settles : Settles limit state tokens) (previous : Option Token) (more : List Token) :
    Settles limit (Check.stateBehind state previous tokens more) [] := by
  induction tokens generalizing state previous with
  | nil => exact settles
  | cons t tokens ih => exact ih (settles.read previous more) (some t)

def bindsTopFirst : List Role → Bool
  | [] => true
  | .binder _ _ isLocal :: _ => !isLocal
  | _ :: rest => bindsTopFirst rest

private theorem bindsTopFirst_of_namesNext {inAttribute isType : Bool} {access : Access} {previous : Option Token}
    {tokens : List Token} (named : namesNext tokens = true) :
    bindsTopFirst ((rolesFrom ⟨inAttribute, .header isType true access⟩ previous tokens).map (·.2)) = true := by
  induction tokens generalizing access previous with
  | nil => cases named
  | cons t rest ih =>
    have next : (if isModifier t = true then namesNext rest else t.isIdentifier) = true := named
    rw [rolesFrom]
    by_cases modifier : isModifier t = true
    · rw [if_pos modifier] at next
      rw [read_modifier modifier]
      exact ih next
    · rw [if_neg modifier] at next
      obtain ⟨kind, mode, role, -⟩ := @read_name previous t rest inAttribute isType true access next
      rw [role]
      rfl

theorem bindsTopFirst_of_declaresFirst {tokens : List Token} (declares : declaresFirst tokens = true) :
    bindsTopFirst ((rolesFrom ⟨false, .plain⟩ none tokens).map (·.2)) = true := by
  cases tokens with
  | nil => rfl
  | cons t rest =>
    rw [declaresFirst, startsTopLevel, Bool.and_eq_true, Bool.and_eq_true] at declares
    have here := @read_declaration ⟨false, .plain⟩ none t rest declares.1.2 (by simp) (by simp)
    rw [rolesFrom, here, declares.1.1]
    exact bindsTopFirst_of_namesNext declares.2

def code (tokens : List Token) : List Token :=
  tokens.filter (·.kind != .comment)

theorem code_moved (bytes lines : Nat) (tokens : List Token) :
    code (tokens.map (.moved bytes lines)) = (code tokens).map (.moved bytes lines) := by
  rw [code, code, List.filter_map]
  rfl

theorem Settles.follows {limit bytes lines : Nat} {state : ReaderState} (settled : Settles limit state [])
    (behind : limit ≤ lines) (previous : Option Token) {tokens : List Token} (declares : declaresFirst tokens = true) :
    List.Forall₂ (RoleFollows bytes lines) (Check.rolesFrom ⟨false, .plain⟩ none tokens)
      (Check.rolesFrom state previous (tokens.map (.moved bytes lines))) := by
  cases tokens with
  | nil => exact .nil
  | cons t rest =>
    rw [declaresFirst, startsTopLevel, Bool.and_eq_true, Bool.and_eq_true] at declares
    have arrived : state.mode ≠ .lambda := fun waits => Bool.false_ne_true (settled.waiting waits)
    have later : ∀ line, state.mode = .parameters line → (t.moved bytes lines).line ≠ line := by
      intro line started
      have := settled.started line started
      rw [Token.line_moved]
      omega
    have here := @read_declaration ⟨false, .plain⟩ none t rest declares.1.2 (by simp) (by simp)
    have there := @read_declaration state previous (t.moved bytes lines) (rest.map (.moved bytes lines)) declares.1.2
      arrived later
    rw [List.map_cons, Check.rolesFrom, Check.rolesFrom, here, there]
    exact .cons ⟨rfl, .same _⟩ (rolesFrom_alike bytes lines rfl (some t) rest)

end CrossRef.Check
