/-! Offsets into a text count the bytes of its UTF-8 form. This module measures texts in bytes and cuts them
at byte offsets, which works only where a character ends. -/

namespace CrossRef.Text

/-- The number of bytes that characters take. -/
def size (cs : List Char) : Nat :=
  cs.foldr (fun c bytes => c.utf8Size + bytes) 0

@[simp] theorem size_nil : size [] = 0 := rfl

@[simp] theorem size_cons (c : Char) (cs : List Char) : size (c :: cs) = c.utf8Size + size cs := rfl

@[simp] theorem size_append (left right : List Char) :
    size (left ++ right) = size left + size right := by
  induction left with
  | nil => simp
  | cons c cs ih => simp [ih, Nat.add_assoc]

@[simp] theorem size_toList (text : String) : size text.toList = text.utf8ByteSize := by
  suffices same : ∀ cs : List Char, size cs = (String.ofList cs).utf8ByteSize by
    rw [same, String.ofList_toList]
  intro cs
  induction cs with
  | nil => simp
  | cons c cs ih => simp [String.ofList_cons, String.utf8ByteSize_append, ih]

/-- Of two ways to cut a text, the one with the longer front cuts the back of the other one. -/
theorem exists_append_of_size_le {front back longer rest : String} (same : front ++ back = longer ++ rest)
    (sizes : front.utf8ByteSize ≤ longer.utf8ByteSize) :
    ∃ more, longer = front ++ more ∧ back = more ++ rest := by
  have lists : front.toList ++ back.toList = longer.toList ++ rest.toList := by
    rw [← String.toList_append, ← String.toList_append, same]
  rcases List.append_eq_append_iff.1 lists with ⟨more, fronts, backs⟩ | ⟨more, fronts, backs⟩
  · exact ⟨String.ofList more, String.toList_inj.1 (by simp [fronts]), String.toList_inj.1 (by simp [backs])⟩
  · have nothing : more = [] := by
      cases more with
      | nil => rfl
      | cons c cs =>
        have total : size front.toList = size longer.toList + size (c :: cs) := by rw [fronts, size_append]
        have := c.utf8Size_pos
        simp only [size_toList, size_cons] at total
        omega
    subst nothing
    exact ⟨"", String.toList_inj.1 (by simp [fronts]), String.toList_inj.1 (by simp [backs])⟩

/-- Whether an offset lies inside the text (its end included) and between two characters. -/
def isBoundary (text : String) (offset : Nat) : Bool :=
  String.Pos.Raw.isValid text ⟨offset⟩

/-- The boundaries of a text are the ends of its initial pieces. -/
theorem isBoundary_iff {text : String} {offset : Nat} :
    isBoundary text offset = true ↔
      ∃ front back, text = front ++ back ∧ front.utf8ByteSize = offset := by
  simp only [isBoundary, String.Pos.Raw.isValid_eq_true_iff, String.Pos.Raw.isValid_iff_exists_append]
  constructor
  · rintro ⟨front, back, joined, ends⟩
    exact ⟨front, back, joined, (congrArg String.Pos.Raw.byteIdx ends).symm⟩
  · rintro ⟨front, back, joined, rfl⟩
    exact ⟨front, back, joined, rfl⟩

theorem isBoundary_zero (text : String) : isBoundary text 0 = true :=
  isBoundary_iff.2 ⟨"", text, by simp, by simp⟩

theorem isBoundary_utf8ByteSize (text : String) : isBoundary text text.utf8ByteSize = true :=
  isBoundary_iff.2 ⟨text, "", by simp, rfl⟩

theorem le_utf8ByteSize_of_isBoundary {text : String} {offset : Nat} (cuts : isBoundary text offset = true) :
    offset ≤ text.utf8ByteSize := by
  obtain ⟨front, back, rfl, rfl⟩ := isBoundary_iff.1 cuts
  simp [String.utf8ByteSize_append]

/-- The text from one offset up to another one, unless one of them is no boundary or they are in the wrong
order. -/
def between? (text : String) (start stop : Nat) : Option String :=
  if cuts : isBoundary text start = true ∧ isBoundary text stop = true ∧ start ≤ stop then
    some (String.extract
      (⟨⟨start⟩, String.Pos.Raw.isValid_eq_true_iff.1 cuts.1⟩ : text.Pos)
      ⟨⟨stop⟩, String.Pos.Raw.isValid_eq_true_iff.1 cuts.2.1⟩)
  else
    none

theorem between?_append (front inside back : String) :
    between? (front ++ inside ++ back) front.utf8ByteSize (front ++ inside).utf8ByteSize = some inside := by
  have first : isBoundary (front ++ inside ++ back) front.utf8ByteSize = true :=
    isBoundary_iff.2 ⟨front, inside ++ back, String.append_assoc .., rfl⟩
  have second : isBoundary (front ++ inside ++ back) (front ++ inside).utf8ByteSize = true :=
    isBoundary_iff.2 ⟨front ++ inside, back, rfl, rfl⟩
  have ordered : front.utf8ByteSize ≤ (front ++ inside).utf8ByteSize := by
    simp [String.utf8ByteSize_append]
  rw [between?, dif_pos ⟨first, second, ordered⟩]
  congr 1
  rw [← String.toByteArray_inj, String.toByteArray_extract]
  simp only [String.toByteArray_append, String.utf8ByteSize_append, ByteArray.extract_append,
    ByteArray.size_append, String.size_toByteArray]
  have nothing : front.toByteArray.extract front.toByteArray.size
      (front.toByteArray.size + inside.toByteArray.size) = ByteArray.empty := by
    rw [ByteArray.extract_eq_empty_iff]
    exact Nat.min_le_right ..
  simp [nothing, ← String.size_toByteArray]

/-- What is cut out are the pieces that the text is made of. -/
theorem between?_eq_some_iff {text inside : String} {start stop : Nat} :
    between? text start stop = some inside ↔
      ∃ front back, text = front ++ inside ++ back ∧ front.utf8ByteSize = start ∧
        (front ++ inside).utf8ByteSize = stop := by
  constructor
  · intro found
    by_cases cuts : isBoundary text start = true ∧ isBoundary text stop = true ∧ start ≤ stop
    · obtain ⟨front, rest, rfl, rfl⟩ := isBoundary_iff.1 cuts.1
      obtain ⟨whole, back, same, rfl⟩ := isBoundary_iff.1 cuts.2.1
      obtain ⟨middle, rfl, _⟩ := exists_append_of_size_le same cuts.2.2
      rw [same, between?_append] at found
      obtain rfl := Option.some.inj found
      exact ⟨front, back, same, rfl, rfl⟩
    · simp [between?, cuts] at found
  · rintro ⟨front, back, rfl, rfl, rfl⟩
    exact between?_append front inside back

/-- Where something is cut out, no character is cut. -/
theorem isBoundary_of_between? {text inside : String} {start stop : Nat}
    (cut : between? text start stop = some inside) : isBoundary text start = true ∧ isBoundary text stop = true := by
  obtain ⟨front, back, joined, first, last⟩ := between?_eq_some_iff.1 cut
  constructor
  · exact isBoundary_iff.2 ⟨front, inside ++ back, by rw [joined, String.append_assoc], first⟩
  · exact isBoundary_iff.2 ⟨front ++ inside, back, joined, last⟩

/-- The last boundary at or before an offset of the text. -/
def boundaryDown (text : String) : Nat → Nat
  | 0 => 0
  | offset + 1 => if isBoundary text (offset + 1) then offset + 1 else boundaryDown text offset

/-- The last boundary at or before an offset, which may lie behind the text. -/
def boundaryBefore (text : String) (offset : Nat) : Nat :=
  boundaryDown text (min offset text.utf8ByteSize)

theorem isBoundary_boundaryBefore (text : String) (offset : Nat) :
    isBoundary text (boundaryBefore text offset) = true := by
  unfold boundaryBefore
  induction min offset text.utf8ByteSize with
  | zero => exact isBoundary_zero text
  | succ n ih =>
    rw [boundaryDown]
    split
    · assumption
    · exact ih

theorem boundaryDown_le (text : String) (offset : Nat) : boundaryDown text offset ≤ offset := by
  induction offset with
  | zero => exact Nat.le_refl 0
  | succ n ih =>
    rw [boundaryDown]
    split <;> omega

theorem boundaryBefore_le (text : String) (offset : Nat) : boundaryBefore text offset ≤ offset :=
  Nat.le_trans (boundaryDown_le text _) (Nat.min_le_left ..)

/-- No boundary lies between the one that is found and the offset. -/
theorem le_boundaryBefore {text : String} {offset other : Nat} (cuts : isBoundary text other = true)
    (before : other ≤ offset) : other ≤ boundaryBefore text offset := by
  have inside : other ≤ min offset text.utf8ByteSize :=
    Nat.le_min.2 ⟨before, le_utf8ByteSize_of_isBoundary cuts⟩
  unfold boundaryBefore
  generalize min offset text.utf8ByteSize = bound at inside
  induction bound with
  | zero => omega
  | succ n ih =>
    rw [boundaryDown]
    split
    · exact inside
    · rename_i missing
      refine ih ?_
      rcases Nat.lt_or_eq_of_le inside with less | rfl
      · omega
      · exact absurd cuts missing

end CrossRef.Text
