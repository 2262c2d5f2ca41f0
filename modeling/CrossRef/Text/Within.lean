import CrossRef.Text.Bytes

/-! Cutting a part of a text is cutting the whole: boundaries and cuts inside the part are those of the
whole text, as far behind its start as the part is. -/

namespace CrossRef.Text

variable (front inside back : String)

theorem isBoundary_within {n : Nat} (fits : n ≤ inside.utf8ByteSize) :
    isBoundary (front ++ inside ++ back) (front.utf8ByteSize + n) = isBoundary inside n := by
  rw [Bool.eq_iff_iff, isBoundary_iff, isBoundary_iff]
  constructor
  · rintro ⟨left, right, same, ends⟩
    rw [String.append_assoc] at same
    obtain ⟨more, rfl, rest⟩ := exists_append_of_size_le same (by omega)
    rw [String.utf8ByteSize_append] at ends
    obtain ⟨last, rfl, _⟩ := exists_append_of_size_le rest.symm (by omega)
    exact ⟨more, last, rfl, by omega⟩
  · rintro ⟨left, right, rfl, rfl⟩
    exact ⟨front ++ left, right ++ back, by simp [String.append_assoc], String.utf8ByteSize_append⟩

theorem between?_within {start stop : Nat} (fits : stop ≤ inside.utf8ByteSize) :
    between? (front ++ inside ++ back) (front.utf8ByteSize + start) (front.utf8ByteSize + stop) =
      between? inside start stop := by
  apply Option.ext
  intro found
  simp only [between?_eq_some_iff]
  constructor
  · rintro ⟨left, right, same, begins, ends⟩
    rw [String.append_assoc, String.append_assoc] at same
    obtain ⟨more, rfl, rest⟩ := exists_append_of_size_le same (by omega)
    rw [← String.append_assoc] at rest
    simp only [String.utf8ByteSize_append] at begins ends
    obtain ⟨last, rfl, _⟩ := exists_append_of_size_le rest.symm (by rw [String.utf8ByteSize_append]; omega)
    exact ⟨more, last, rfl, by omega, by rw [String.utf8ByteSize_append]; omega⟩
  · rintro ⟨left, right, rfl, rfl, rfl⟩
    refine ⟨front ++ left, right ++ back, by simp [String.append_assoc], String.utf8ByteSize_append, ?_⟩
    simp only [String.utf8ByteSize_append]
    omega

theorem boundaryBefore_within {n : Nat} (fits : n ≤ inside.utf8ByteSize) :
    boundaryBefore (front ++ inside ++ back) (front.utf8ByteSize + n) =
      front.utf8ByteSize + boundaryBefore inside n := by
  have near := boundaryBefore_le inside n
  apply Nat.le_antisymm
  · have first : front.utf8ByteSize ≤
        boundaryBefore (front ++ inside ++ back) (front.utf8ByteSize + n) :=
      le_boundaryBefore (isBoundary_iff.2 ⟨front, inside ++ back, String.append_assoc .., rfl⟩) (by omega)
    have last := boundaryBefore_le (front ++ inside ++ back) (front.utf8ByteSize + n)
    have cuts := isBoundary_boundaryBefore (front ++ inside ++ back) (front.utf8ByteSize + n)
    obtain ⟨m, found⟩ := Nat.exists_eq_add_of_le first
    rw [found] at cuts last ⊢
    rw [isBoundary_within front inside back (by omega)] at cuts
    have := le_boundaryBefore cuts (show m ≤ n by omega)
    omega
  · refine le_boundaryBefore ?_ (by omega)
    rw [isBoundary_within front inside back (by omega)]
    exact isBoundary_boundaryBefore inside n

end CrossRef.Text
