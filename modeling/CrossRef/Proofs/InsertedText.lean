import CrossRef.Proofs.TokenPlaces

/-! The tokens of a text with another one inserted above it. Lines are read one by one, and what is carried from
one to the next are the open regions alone. So behind a text that ends its last line and its regions, the tokens
are those of the text below, moved by the bytes and lines above them. -/

namespace CrossRef

namespace Text

variable {c d : Char}

private theorem split_cons_of_ne (other : c ≠ d) (cs : List Char) :
    ∃ first rest, split d cs = first :: rest ∧ split d (c :: cs) = (c :: first) :: rest := by
  cases pieces : split d cs with
  | nil => exact absurd pieces (split_ne_nil d cs)
  | cons first rest =>
    refine ⟨first, rest, rfl, ?_⟩
    simp only [split] at pieces
    simp only [split, List.foldr_cons, if_neg other, pieces]

theorem split_append (d : Char) (front back : List Char) :
    split d (front ++ d :: back) = split d front ++ split d back := by
  induction front with
  | nil => simp
  | cons c front ih =>
    by_cases same : c = d
    · rw [same, List.cons_append, split_cons_self, split_cons_self, ih, List.cons_append]
    · obtain ⟨first, rest, pieces, longer⟩ := split_cons_of_ne same front
      obtain ⟨piece, more, whole, joined⟩ := split_cons_of_ne same (front ++ d :: back)
      rw [ih, pieces, List.cons_append] at whole
      obtain ⟨rfl, rfl⟩ := List.cons.inj whole
      rw [List.cons_append, joined, longer, List.cons_append]

theorem length_split (d : Char) (cs : List Char) : (split d cs).length = cs.count d + 1 := by
  induction cs with
  | nil => rfl
  | cons c cs ih =>
    by_cases same : c = d
    · rw [same, split_cons_self, List.length_cons, ih, List.count_cons_self]
    · obtain ⟨first, rest, pieces, longer⟩ := split_cons_of_ne same cs
      rw [longer, List.count_cons_of_ne same, ← ih, pieces, List.length_cons, List.length_cons]

private theorem flatMap_split (d : Char) (cs : List Char) : (split d cs).flatMap (· ++ [d]) = cs ++ [d] := by
  induction cs with
  | nil => rfl
  | cons c cs ih =>
    by_cases same : c = d
    · rw [same, split_cons_self, List.flatMap_cons, ih, List.nil_append, List.cons_append, List.nil_append,
        List.cons_append]
    · obtain ⟨first, rest, pieces, longer⟩ := split_cons_of_ne same cs
      rw [pieces, List.flatMap_cons] at ih
      rw [longer, List.flatMap_cons, List.cons_append, List.cons_append, ih, List.cons_append]

end Text

def Span.moved (bytes : Nat) (s : Span) : Span :=
  ⟨bytes + s.start, s.length⟩

def Line.moved (bytes : Nat) (l : Line) : Line :=
  ⟨bytes + l.start, l.content⟩

private theorem Line.place_moved (bytes start : Nat) (pieces : List (List Char)) :
    place (bytes + start) pieces = (place start pieces).map (moved bytes) := by
  induction pieces generalizing start with
  | nil => rfl
  | cons piece rest ih =>
    rw [place_cons, place_cons, List.map_cons, ← ih]
    simp [moved, Nat.add_assoc]

end CrossRef

namespace CrossRef.Syntax

def Token.moved (bytes lines : Nat) (t : Token) : Token :=
  { t with span := t.span.moved bytes, line := lines + t.line }

variable {defines : List String}

theorem lexLine_moved (bytes lines line start skip column : Nat) (cs : List Char) :
    lexLine (lines + line) (bytes + start) skip column cs =
      (lexLine line start skip column cs).map (Token.moved bytes lines) := by
  induction cs generalizing skip column with
  | nil => cases skip <;> rfl
  | cons c cs ih =>
    cases skip with
    | succ skip => exact ih ..
    | zero =>
      rw [lexLine, lexLine]
      split
      · exact ih ..
      · simp only [List.map_cons, ih]
        simp [Token.moved, Span.moved, Nat.add_assoc]

private theorem lexLines_moved (bytes lines line : Nat) (regions : List Region) (ls : List Line) :
    (lexLines defines (lines + line) regions (ls.map (.moved bytes))).tokens =
      (lexLines defines line regions ls).tokens.map (Token.moved bytes lines) := by
  induction ls generalizing line regions with
  | nil => rfl
  | cons l ls ih =>
    have next := fun regions => ih (line + 1) regions
    simp only [← Nat.add_assoc] at next
    rw [List.map_cons, Line.moved]
    cases found : Directive.ofLine? l.content with
    | some d => rw [tokens_of_directive _ _ _ found, tokens_of_directive _ _ _ found, next]
    | none =>
      rw [tokens_of_text _ _ _ found, tokens_of_text _ _ _ found, next, List.map_append, lexLine_moved]
      split <;> rfl

def regionsBehind (defines : List String) (regions : List Region) (ls : List Line) : List Region :=
  ls.foldl (fun regions l => (Directive.ofLine? l.content).elim regions (regionsAfter defines regions)) regions

theorem tokens_append (line : Nat) (regions : List Region) (ls rest : List Line) :
    (lexLines defines line regions (ls ++ rest)).tokens =
      (lexLines defines line regions ls).tokens ++
        (lexLines defines (line + ls.length) (regionsBehind defines regions ls) rest).tokens := by
  induction ls generalizing line regions with
  | nil => rfl
  | cons l ls ih =>
    have next := fun regions => ih (line + 1) regions
    simp only [Nat.add_assoc, Nat.add_comm 1] at next
    rw [List.cons_append, regionsBehind, List.foldl_cons, List.length_cons]
    cases found : Directive.ofLine? l.content with
    | some d =>
      rw [tokens_of_directive _ _ _ found, tokens_of_directive _ _ _ found, next, Option.elim_some]
      rfl
    | none =>
      rw [tokens_of_text _ _ _ found, tokens_of_text _ _ _ found, next, Option.elim_none, List.append_assoc]
      rfl

private theorem diagnostics_suffix (line : Nat) (regions : List Region) (l : Line) (ls : List Line) :
    (lexLines defines (line + 1) ((Directive.ofLine? l.content).elim regions (regionsAfter defines regions)) ls
      ).diagnostics <:+ (lexLines defines line regions (l :: ls)).diagnostics := by
  cases found : Directive.ofLine? l.content with
  | some d =>
    cases d with
    | opening condition => simp [lexLines, found, regionsAfter]
    | alternative => cases regions <;> simp [lexLines, found, regionsAfter]
    | closing => cases regions <;> simp [lexLines, found, regionsAfter]
  | none => by_cases active : isActive regions = true <;> simp [lexLines, found, active]

theorem regionsBehind_eq_nil {line : Nat} {regions : List Region} {ls : List Line}
    (closed : ∀ d ∈ (lexLines defines line regions ls).diagnostics, d.fault ≠ .openRegion) :
    regionsBehind defines regions ls = [] := by
  induction ls generalizing line regions with
  | nil =>
    cases regions with
    | nil => rfl
    | cons region outer => exact absurd rfl (closed ⟨line - 1, .openRegion⟩ (by simp [lexLines]))
  | cons l ls ih => exact ih fun d later => closed d ((diagnostics_suffix line regions l ls).subset later)

/-- The lines of a text below another one that ends its last line. -/
theorem ofText_append {front : List Char} (back : List Char) :
    Line.ofText (front ++ '\n' :: back) =
      Line.place 0 (Text.split '\n' front) ++ (Line.ofText back).map (.moved (Text.size (front ++ ['\n']))) := by
  rw [Line.ofText, Line.ofText, Text.split_append, Line.place_append, Text.flatMap_split, Nat.zero_add,
    ← Line.place_moved, Nat.add_zero]

/-- The tokens of a text below another one: those of the other one, and its own, moved. -/
theorem tokens_inserted {above : String} (ended : above.toList.getLast? = some '\n')
    (closed : ∀ d ∈ (lex above defines).diagnostics, d.fault ≠ .openRegion) (below : String) :
    (lex (above ++ below) defines).tokens = (lex above defines).tokens ++
      (lex below defines).tokens.map (.moved above.utf8ByteSize (above.toList.count '\n')) := by
  obtain ⟨front, whole⟩ := List.getLast?_eq_some_iff.mp ended
  have size : Text.size (front ++ ['\n']) = above.utf8ByteSize := by rw [← whole, Text.size_toList]
  have lines : (Line.place 0 (Text.split '\n' front)).length = above.toList.count '\n' := by
    rw [Line.length_place, Text.length_split, whole, List.count_append, List.count_singleton_self]
  have both : (above ++ below).toList = front ++ '\n' :: below.toList := by
    rw [String.toList_append, whole, List.append_assoc, List.singleton_append]
  -- The last line of the text above is empty, so it closes nothing and has no tokens.
  have last : (Line.ofText []).map (Line.moved above.utf8ByteSize) = [⟨above.utf8ByteSize, []⟩] := rfl
  rw [lex, whole, ofText_append, size, last] at closed
  have outside : regionsBehind defines [] (Line.place 0 (Text.split '\n' front)) = [] := by
    have behind := regionsBehind_eq_nil closed
    rwa [regionsBehind, List.foldl_append] at behind
  have silent : (lexLines defines (0 + above.toList.count '\n') [] [⟨above.utf8ByteSize, []⟩]).tokens = [] := rfl
  have moved := @lexLines_moved defines above.utf8ByteSize (above.toList.count '\n') 0 [] (Line.ofText below.toList)
  rw [Nat.add_comm] at moved
  rw [lex, lex, lex, both, whole, ofText_append, ofText_append, size, last, tokens_append, tokens_append, lines,
    outside, silent, moved, List.append_nil, ← whole]

theorem line_lt_count {text : String} (ended : text.toList.getLast? = some '\n') {t : Token}
    (member : t ∈ (lex text defines).tokens) : t.line < text.toList.count '\n' := by
  obtain ⟨before, piece, after, left, c, more, right, pieces, content, -, number, -⟩ :=
    line_of_mem_allTokens ((lex_sublist text defines).subset member)
  obtain ⟨front, whole⟩ := List.getLast?_eq_some_iff.mp ended
  rw [whole, Text.split_append, Text.split_nil] at pieces
  have filled : after ≠ [] := by
    rintro rfl
    obtain ⟨-, same⟩ := List.append_inj' pieces rfl
    cases same
    cases left <;> cases content
  have sizes := congrArg List.length pieces
  rw [List.length_append, List.length_append, Text.length_split, List.length_cons] at sizes
  have behind := List.length_pos_of_ne_nil filled
  rw [number, whole, List.count_append, List.count_singleton_self]
  simp only [List.length_cons, List.length_nil] at sizes
  omega

end CrossRef.Syntax
