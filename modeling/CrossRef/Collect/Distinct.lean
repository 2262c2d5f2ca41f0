import Std.Data.HashSet

/-! Keeping the first of the elements that have the same key. -/

namespace CrossRef

variable {α β : Type} [DecidableEq β] [Hashable β]

/-- Keeps the first element of each key that has not been seen before. -/
def distinctBeyond (key : α → β) (seen : Std.HashSet β) : List α → List α
  | [] => []
  | x :: xs =>
    if seen.contains (key x) then distinctBeyond key seen xs
    else x :: distinctBeyond key (seen.insert (key x)) xs

/-- Keeps the first element of each key, in order. -/
def distinctBy (key : α → β) (xs : List α) : List α :=
  distinctBeyond key ∅ xs

/-- All that matters of the seen keys is which ones they are. -/
theorem distinctBeyond_congr (key : α → β) {seen other : Std.HashSet β}
    (same : ∀ k, seen.contains k = other.contains k) (xs : List α) :
    distinctBeyond key seen xs = distinctBeyond key other xs := by
  induction xs generalizing seen other with
  | nil => rfl
  | cons x xs ih =>
    simp only [distinctBeyond, same]
    split
    · exact ih same
    · have more : ∀ k, (seen.insert (key x)).contains k = (other.insert (key x)).contains k :=
        fun k => by simp [Std.HashSet.contains_insert, same]
      rw [ih more]

theorem distinctBeyond_insert (key : α → β) (seen : Std.HashSet β) (k : β) (xs : List α) :
    distinctBeyond key (seen.insert k) xs = (distinctBeyond key seen xs).filter (key · ≠ k) := by
  induction xs generalizing seen with
  | nil => rfl
  | cons x xs ih =>
    by_cases old : seen.contains (key x)
    · simp [distinctBeyond, old, ih]
    · by_cases same : key x = k
      · subst same
        simp [distinctBeyond, old, ih]
      · have swap : ∀ other, ((seen.insert k).insert (key x)).contains other =
            ((seen.insert (key x)).insert k).contains other := fun other => by
          simp only [Std.HashSet.contains_insert, ← Bool.or_assoc]
          rw [Bool.or_comm (key x == other)]
        simp [distinctBeyond, old, same, Ne.symm same, distinctBeyond_congr key swap, ih]

@[simp] theorem distinctBy_nil (key : α → β) : distinctBy key [] = [] := rfl

/-- The first element is kept, and of the others those with another key. -/
@[simp] theorem distinctBy_cons (key : α → β) (x : α) (xs : List α) :
    distinctBy key (x :: xs) = x :: (distinctBy key xs).filter (key · ≠ key x) := by
  rw [distinctBy, distinctBeyond, distinctBeyond_insert]
  simp [distinctBy]

/-- Nothing is made up. -/
theorem distinctBy_sublist (key : α → β) (xs : List α) : (distinctBy key xs).Sublist xs := by
  induction xs with
  | nil => simp
  | cons x xs ih =>
    rw [distinctBy_cons]
    exact (List.filter_sublist.trans ih).cons_cons x

/-- No two of the elements that are kept have one key. -/
theorem pairwise_distinctBy (key : α → β) (xs : List α) :
    (distinctBy key xs).Pairwise (key · ≠ key ·) := by
  induction xs with
  | nil => simp
  | cons x xs ih =>
    rw [distinctBy_cons, List.pairwise_cons]
    refine ⟨fun y kept => ?_, ih.filter _⟩
    have other := (List.mem_filter.1 kept).2
    exact Ne.symm (by simpa using other)

/-- No key is lost. -/
theorem mem_map_distinctBy (key : α → β) (xs : List α) (k : β) :
    k ∈ (distinctBy key xs).map key ↔ k ∈ xs.map key := by
  induction xs with
  | nil => simp
  | cons x xs ih =>
    by_cases same : k = key x
    · simp [same]
    · simp only [List.mem_map] at ih
      simp only [distinctBy_cons, List.map_cons, List.mem_cons, same, false_or, List.mem_map,
        List.mem_filter, ← ih]
      constructor
      · rintro ⟨y, ⟨kept, _⟩, rfl⟩
        exact ⟨y, kept, rfl⟩
      · rintro ⟨y, kept, rfl⟩
        exact ⟨y, ⟨kept, by simpa using same⟩, rfl⟩

/-- A search that looks at nothing but keys finds the same element. -/
theorem find?_distinctBy (key : α → β) (p : α → Bool) (xs : List α)
    (byKey : ∀ x y, key x = key y → p x = p y) : (distinctBy key xs).find? p = xs.find? p := by
  induction xs with
  | nil => rfl
  | cons x xs ih =>
    rw [distinctBy_cons, List.find?_cons, List.find?_cons]
    cases found : p x with
    | true => rfl
    | false =>
      have others : ∀ y, (decide (key y ≠ key x) && p y) = p y := fun y => by
        by_cases same : key y = key x
        · simp [byKey y x same, found]
        · simp [same]
      simp only [List.find?_filter, ← ih]
      congr 1
      funext y
      simpa using others y

/-- Where no two elements have one key, an element is the only one with its key. -/
theorem filter_eq_singleton {γ κ : Type} [DecidableEq κ] {f : γ → κ} {l : List γ} (distinct : (l.map f).Nodup) {x : γ}
    (member : x ∈ l) :
    l.filter (fun y => f y = f x) = [x] := by
  induction l with
  | nil => cases member
  | cons first rest ih =>
    rw [List.map_cons, List.nodup_cons] at distinct
    rcases List.mem_cons.mp member with rfl | later
    · have others : rest.filter (fun y => f y = f x) = [] := by
        rw [List.filter_eq_nil_iff]
        intro y inside same
        exact distinct.1 (of_decide_eq_true same ▸ List.mem_map_of_mem inside)
      rw [List.filter_cons_of_pos (by simp), others]
    · have different : ¬f first = f x := fun same => distinct.1 (same ▸ List.mem_map_of_mem later)
      rw [List.filter_cons_of_neg (by simpa using different), ih distinct.2 later]

end CrossRef
