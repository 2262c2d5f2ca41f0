/-! Blanks, comments, line ends and strings of a TOML text. A reader takes a piece off the front of the text
and gives back what is left. -/

namespace CrossRef.Toml

def isBlank (c : Char) : Bool :=
  c == ' ' || c == '\t'

/-- The characters that may stand inside a line: all but the control characters other than the tab. -/
def isPrintable (c : Char) : Bool :=
  c == '\t' || (' ' ≤ c && c ≤ '~') || 0x80 ≤ c.toNat

def skipBlanks (cs : List Char) : List Char :=
  cs.dropWhile isBlank

/-- What follows a line end, which is a newline, perhaps with a carriage return before it. -/
def newline? : List Char → Option (List Char)
  | '\n' :: rest => some rest
  | '\r' :: '\n' :: rest => some rest
  | _ => none

/-- What follows a comment, up to the end of its line. -/
def skipComment (cs : List Char) : List Char :=
  if cs.head? = some '#' then cs.dropWhile isPrintable else cs

/-- The next line, if nothing but blanks and a comment is left of this one. -/
def nextLine? (cs : List Char) : Option (List Char) :=
  match skipComment (skipBlanks cs) with
  | [] => some []
  | rest => newline? rest

/-- Skips blanks, line ends and comments. -/
def skipLines : (inComment : Bool) → List Char → List Char
  | _, [] => []
  | false, c :: rest =>
    if isBlank c || c == '\n' then skipLines false rest
    else if c == '#' then skipLines true rest
    else if c == '\r' && rest.head? == some '\n' then skipLines false rest
    else c :: rest
  | true, c :: rest =>
    if c == '\n' then skipLines false rest
    else if isPrintable c then skipLines true rest
    else if c == '\r' && rest.head? == some '\n' then skipLines false rest
    else c :: rest

/-- The value of a hexadecimal digit. -/
def hexDigit? (c : Char) : Option Nat :=
  if '0' ≤ c ∧ c ≤ '9' then some (c.toNat - '0'.toNat)
  else if 'a' ≤ c ∧ c ≤ 'f' then some (c.toNat - 'a'.toNat + 10)
  else if 'A' ≤ c ∧ c ≤ 'F' then some (c.toNat - 'A'.toNat + 10)
  else none

/-- The character with the code point that the given number of hexadecimal digits name. -/
def codePoint? (count : Nat) (cs : List Char) : Option Char := do
  let digits ← (cs.take count).mapM hexDigit?
  let code := digits.foldl (fun value digit => 16 * value + digit) 0
  if digits.length = count ∧ code.isValidChar then some (Char.ofNat code) else none

/-- The character that an escape stands for, and the length of the escape behind its backslash. -/
def escape? (cs : List Char) : Option (Char × Nat) :=
  match cs with
  | 'b' :: _ => some ('\x08', 1)
  | 't' :: _ => some ('\t', 1)
  | 'n' :: _ => some ('\n', 1)
  | 'f' :: _ => some ('\x0c', 1)
  | 'r' :: _ => some ('\r', 1)
  | '\x22' :: _ => some ('\x22', 1)
  | '\x5c' :: _ => some ('\x5c', 1)
  | 'u' :: rest => (codePoint? 4 rest).map (·, 5)
  | 'U' :: rest => (codePoint? 8 rest).map (·, 9)
  | _ => none

/-- Puts a character before what a reader has found. -/
def prepend (c : Char) (found : Option (List Char × List Char)) : Option (List Char × List Char) :=
  found.map fun (content, rest) => (c :: content, rest)

/-- Reads the rest of a string on one line, after passing over the first `skip` characters. Only double
quotes allow escapes. -/
def lineString (quote : Char) : (skip : Nat) → List Char → Option (List Char × List Char)
  | _, [] => none
  | skip + 1, _ :: rest => lineString quote skip rest
  | 0, c :: rest =>
    if c = quote then
      some ([], rest)
    else if c = '\x5c' ∧ quote = '\x22' then
      match escape? rest with
      | some (meant, length) => prepend meant (lineString quote length rest)
      | none => none
    else if isPrintable c then
      prepend c (lineString quote 0 rest)
    else
      none

/-- Skips blanks and line ends. -/
def skipSpace : List Char → List Char
  | [] => []
  | c :: rest =>
    if isBlank c || c == '\n' || (c == '\r' && rest.head? == some '\n') then skipSpace rest else c :: rest

/-- How much a backslash at the end of a line joins: the line end and all blanks and line ends behind it. -/
def joined? (cs : List Char) : Option Nat :=
  (newline? (skipBlanks cs)).map fun rest => cs.length - (skipSpace rest).length

/-- Reads the rest of a string of several lines, after passing over the first `skip` characters. Up to two
quotes may stand before the three that end it. -/
def longString (quote : Char) : (skip : Nat) → List Char → Option (List Char × List Char)
  | _, [] => none
  | skip + 1, _ :: rest => longString quote skip rest
  | 0, c :: rest =>
    if c = quote then
      let more := (rest.takeWhile (· = quote)).length
      if more < 2 then
        prepend c (longString quote 0 rest)
      else
        let inside := min (more - 2) 2
        some (List.replicate inside quote, rest.drop (inside + 2))
    else if c = '\x5c' ∧ quote = '\x22' then
      match joined? rest with
      | some length => longString quote length rest
      | none =>
        match escape? rest with
        | some (meant, length) => prepend meant (longString quote length rest)
        | none => none
    else if c = '\r' ∧ rest.head? = some '\n' then
      longString quote 0 rest
    else if isPrintable c ∨ c = '\n' then
      prepend c (longString quote 0 rest)
    else
      none

/-- Reads a string that starts with the given kind of quote. A line end right behind three quotes does
not count. -/
def string? (quote : Char) (cs : List Char) : Option (String × List Char) :=
  let found :=
    if cs.take 3 = [quote, quote, quote] then
      longString quote 0 ((newline? (cs.drop 3)).getD (cs.drop 3))
    else if cs.head? = some quote then
      lineString quote 0 cs.tail
    else
      none
  found.map fun (content, rest) => (String.ofList content, rest)

/-- The characters of a key without quotes. -/
def isKeyChar (c : Char) : Bool :=
  c.isAlphanum || c == '-' || c == '_'

/-- Reads a key between two dots. -/
def simpleKey? (cs : List Char) : Option (String × List Char) :=
  match cs.head? with
  | none => none
  | some c =>
    if c = '\x22' ∨ c = '\x27' then
      (lineString c 0 cs.tail).map fun (content, rest) => (String.ofList content, rest)
    else if isKeyChar c then
      some (String.ofList (cs.takeWhile isKeyChar), cs.dropWhile isKeyChar)
    else
      none

/-- Reads keys with dots between them, at most as many as the fuel. -/
def keys? : (fuel : Nat) → List Char → Option (List String × List Char)
  | 0, _ => none
  | fuel + 1, cs => do
    let (key, rest) ← simpleKey? (skipBlanks cs)
    match skipBlanks rest with
    | '.' :: rest => (keys? fuel rest).map fun (more, rest) => (key :: more, rest)
    | rest => some ([key], rest)

/-- Nesting stays below this bound, in values and in keys. -/
def depthBound : Nat := 80

/-- Reads the path of keys that an entry or a header names. -/
def keyPath? (cs : List Char) : Option (List String × List Char) :=
  keys? (depthBound - 1) cs

end CrossRef.Toml
