import CrossRef.Text.Bytes

/-! Places in a text: byte spans, and positions given by line and column. Lines and columns count from
zero, columns in bytes. -/

namespace CrossRef

/-- The bytes from `start` up to, but not including, `start + length`. -/
structure Span where
  start : Nat
  length : Nat
deriving DecidableEq, Repr, Inhabited

namespace Span

/-- The first byte after the span. -/
def stop (s : Span) : Nat :=
  s.start + s.length

/-- The first byte after the span, for a text of some size. A caller may choose any two words, and an unchecked sum of
words loses its carry: a span of one byte at the last of all offsets ends at 0. The end of a span inside the text is the
plain sum, since texts are shorter than 2^64 bytes. -/
def stopIn (s : Span) (size : Nat) : Nat :=
  if s.stop ≤ size then s.stop else (s.start.toUInt64 + s.length.toUInt64).toNat

theorem stopIn_of_le {s : Span} {size : Nat} (fits : s.stop ≤ size) : s.stopIn size = s.stop :=
  if_pos fits

theorem stopIn_eq_word (s : Span) {size : Nat} (short : size < UInt64.size) :
    s.stopIn size = (s.start.toUInt64 + s.length.toUInt64).toNat := by
  unfold stopIn
  split
  · next fits =>
    have sum : s.start + s.length < UInt64.size := Nat.lt_of_le_of_lt fits short
    have start : s.start.toUInt64.toNat = s.start :=
      UInt64.toNat_ofNat_of_lt' (Nat.lt_of_le_of_lt (Nat.le_add_right ..) sum)
    have length : s.length.toUInt64.toNat = s.length :=
      UInt64.toNat_ofNat_of_lt' (Nat.lt_of_le_of_lt (Nat.le_add_left ..) sum)
    rw [UInt64.toNat_add, start, length]
    exact (Nat.mod_eq_of_lt sum).symm
  · rfl

/-- The span between two offsets, empty if they are in the wrong order. -/
def ofBounds (start stop : Nat) : Span :=
  ⟨start, stop - start⟩

def isEmpty (s : Span) : Bool :=
  s.length == 0

def contains (s : Span) (offset : Nat) : Bool :=
  s.start ≤ offset && offset < s.stop

def overlaps (s t : Span) : Bool :=
  s.start < t.stop && t.start < s.stop

/-- Spans are ordered by start, then by length. -/
instance : Ord Span where
  compare s t := (compare s.start t.start).then (compare s.length t.length)

/-- The text under a span, unless it runs past the end or cuts a character. -/
def slice? (s : Span) (text : String) : Option String :=
  Text.between? text s.start s.stop

/-- A span covers a text exactly if the whole is made of what is before, that text, and what is behind. -/
theorem slice?_eq_some_iff {s : Span} {text inside : String} :
    s.slice? text = some inside ↔
      ∃ front back, text = front ++ inside ++ back ∧ front.utf8ByteSize = s.start ∧
        inside.utf8ByteSize = s.length := by
  simp only [slice?, Text.between?_eq_some_iff, String.utf8ByteSize_append, stop]
  constructor
  · rintro ⟨front, back, joined, start, stop⟩
    exact ⟨front, back, joined, start, by omega⟩
  · rintro ⟨front, back, joined, start, length⟩
    exact ⟨front, back, joined, start, by omega⟩

end Span

/-- A place given by line and column. The numbers have no bound here. Kept in words of 32 bits they are the same as
long as texts are shorter than 2^32 bytes. -/
structure Position where
  line : Nat
  column : Nat
deriving DecidableEq, Hashable, Repr, Inhabited

namespace Position

instance : Ord Position where
  compare p q := (compare p.line q.line).then (compare p.column q.column)

/-- The position that a line and a column counted from one stand for; zero is read as one. -/
def ofDisplay (line column : Nat) : Position :=
  ⟨line - 1, column - 1⟩

/-- The line and the column, counted from one. -/
def toDisplay (p : Position) : Nat × Nat :=
  (p.line + 1, p.column + 1)

end Position

/-- The text between two positions, the second one not included. -/
structure Range where
  start : Position
  stop : Position
deriving DecidableEq, Hashable, Repr, Inhabited

namespace Range

instance : Ord Range where
  compare r s := (compare r.start s.start).then (compare r.stop s.stop)

/-- A range inside one line. -/
def onLine (line start stop : Nat) : Range :=
  ⟨⟨line, start⟩, ⟨line, stop⟩⟩

end Range

end CrossRef
