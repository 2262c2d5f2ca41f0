import CrossRef.Proofs.PlanOutcome

/-! Uses by document. Every document in whose file there are uses heads one group. In it is each use of that file, in
order, as often as the project of the document lists the file. -/

namespace CrossRef

theorem mem_distinctBy_iff {α β : Type} [DecidableEq β] [Hashable β] (key : α → β) {xs : List α} {x : α} :
    x ∈ distinctBy key xs ↔ xs.find? (key · = key x) = some x := by
  induction xs with
  | nil => simp
  | cons first rest ih =>
    rw [distinctBy_cons, List.mem_cons, List.mem_filter, ih]
    by_cases same : key first = key x
    · simp [same, eq_comm]
    · have other : x ≠ first := fun equal => same (equal ▸ rfl)
      simp [same, other, Ne.symm same]

/-- How often the project of a document lists its file. -/
def Solution.listings (s : Solution) (id : DocumentId) : Nat :=
  s.documents.countP (·.id.Same id)

theorem Solution.listings_of_same (s : Solution) {id other : DocumentId} (same : id.Same other) :
    s.listings id = s.listings other := by
  refine List.countP_congr fun d _ => ?_
  rw [decide_eq_true_eq, decide_eq_true_eq, DocumentId.Same, DocumentId.Same, show id.key = other.key from same]

section

variable {s : Solution} {d : Document} {uses : List Use} {u : Use}

theorem Solution.Distinct.listings_eq (distinct : s.Distinct) (member : d ∈ s.documents) : s.listings d.id = 1 := by
  have once : (s.documents.map (·.id.key)).count d.id.key = 1 :=
    List.count_eq_one_of_mem distinct (List.mem_map_of_mem member)
  rw [List.count, List.countP_map] at once
  exact (List.countP_congr fun e _ => decide_eq_true_iff.trans beq_iff_eq.symm).trans once

theorem Solution.listings_pos (member : d ∈ s.documents) : 0 < s.listings d.id :=
  List.countP_pos_iff.mpr ⟨d, member, decide_eq_true rfl⟩

theorem length_documentsOf (valid : WellFormed s) (d : Document) (file : Path) :
    ((s.documentsOf file).filter (·.key = d.id.key)).length = if d.path.Same file then s.listings d.id else 0 := by
  have path {e : Document} (key : e.id.key = d.id.key) : e.path.Same d.path := congrArg Prod.snd key
  rw [valid.documentsOf_eq, List.filter_filter, ← List.countP_eq_length_filter, List.countP_map]
  split
  · next same =>
    refine List.countP_congr fun e _ => ?_
    simp only [Function.comp_apply, Bool.and_eq_true, decide_eq_true_eq]
    exact ⟨fun both => both.1, fun key => ⟨key, (path key).trans same⟩⟩
  · next other =>
    refine List.countP_eq_zero.mpr fun e _ => ?_
    simp only [Function.comp_apply, Bool.and_eq_true, decide_eq_true_eq]
    exact fun both => other ((path both.1).symm.trans both.2)

theorem mem_pairs (valid : WellFormed s) {id : DocumentId} :
    (id, u) ∈ (uses.flatMap fun u => (s.documentsOf u.place.file).map fun id => (id, u)) ↔
      u ∈ uses ∧ ∃ d ∈ s.documents, d.id = id ∧ d.path.Same u.place.file := by
  simp only [List.mem_flatMap, List.mem_map, Prod.mk.injEq, valid.documentsOf_eq, List.mem_filter,
    decide_eq_true_eq]
  constructor
  · rintro ⟨_, inside, _, ⟨⟨d, member, rfl⟩, same⟩, rfl, rfl⟩
    exact ⟨inside, d, member, rfl, same⟩
  · rintro ⟨inside, d, member, rfl, same⟩
    exact ⟨u, inside, _, ⟨⟨d, member, rfl⟩, same⟩, rfl, rfl⟩

private theorem uses_of_document (valid : WellFormed s) (d : Document) (uses : List Use) :
    ((uses.flatMap fun u => (s.documentsOf u.place.file).map fun id => (id, u)).filter
      (·.1.key = d.id.key)).map (·.2) =
      (uses.filter fun u => d.path.Same u.place.file).flatMap (List.replicate (s.listings d.id)) := by
  induction uses with
  | nil => rfl
  | cons u rest ih =>
    have here : (((s.documentsOf u.place.file).map fun id => (id, u)).filter (·.1.key = d.id.key)).map (·.2) =
        List.replicate (if d.path.Same u.place.file then s.listings d.id else 0) u := by
      rw [← length_documentsOf valid, List.filter_map, List.map_map, ← List.map_const']
      rfl
    rw [List.flatMap_cons, List.filter_append, List.map_append, ih, here]
    by_cases same : d.path.Same u.place.file <;> simp [same]

/-- A group is headed by a document of the solution in whose file there are uses. -/
theorem group_cases (valid : WellFormed s) {group : DocumentUses} (member : group ∈ groupByDocument uses s) :
    ∃ d ∈ s.documents, (∃ u ∈ uses, d.path.Same u.place.file) ∧ group =
      ⟨d.id, (uses.filter fun u => d.path.Same u.place.file).flatMap (List.replicate (s.listings d.id))⟩ := by
  simp only [groupByDocument, List.mem_map, List.mem_mergeSort, Buckets.get_ofList] at member
  obtain ⟨id, kept, rfl⟩ := member
  obtain ⟨⟨_, u⟩, inside, rfl⟩ := List.mem_map.mp ((distinctBy_sublist _ _).subset kept)
  obtain ⟨listed, d, member, rfl, same⟩ := (mem_pairs valid).mp inside
  exact ⟨d, member, ⟨u, listed, same⟩, by rw [uses_of_document valid]⟩

theorem exists_group (valid : WellFormed s) (member : d ∈ s.documents) (listed : u ∈ uses)
    (same : d.path.Same u.place.file) :
    ∃ group ∈ groupByDocument uses s, group.document.Same d.id ∧ u ∈ group.uses := by
  have inside := (mem_pairs valid).mpr ⟨listed, d, member, rfl, same⟩
  have known := List.mem_map_of_mem (f := DocumentId.key) (List.mem_map_of_mem (f := Prod.fst) inside)
  obtain ⟨id, kept, key⟩ := List.mem_map.mp ((mem_map_distinctBy DocumentId.key _ _).mpr known)
  simp only [groupByDocument, List.mem_map, List.mem_mergeSort, Buckets.get_ofList]
  refine ⟨_, ⟨id, kept, rfl⟩, key, ?_⟩
  exact List.mem_map.mpr ⟨_, List.mem_filter.mpr ⟨inside, by simp [key]⟩, rfl⟩

theorem mem_of_mem_group (valid : WellFormed s) {group : DocumentUses} (member : group ∈ groupByDocument uses s)
    (inside : u ∈ group.uses) : u ∈ uses := by
  obtain ⟨d, -, -, rfl⟩ := group_cases valid member
  obtain ⟨v, kept, copy⟩ := List.mem_flatMap.mp inside
  exact List.eq_of_mem_replicate copy ▸ List.mem_of_mem_filter kept

/-- Where no project lists a path twice, a document heads a group of the uses of its file. -/
theorem mem_groupByDocument (valid : WellFormed s) (distinct : s.Distinct) {group : DocumentUses} :
    group ∈ groupByDocument uses s ↔
      ∃ d ∈ s.documents, group = ⟨d.id, uses.filter fun u => d.path.Same u.place.file⟩ ∧ group.uses ≠ [] := by
  have once {d : Document} (member : d ∈ s.documents) :
      (uses.filter fun u => d.path.Same u.place.file).flatMap (List.replicate (s.listings d.id)) =
        uses.filter fun u => d.path.Same u.place.file := by
    rw [distinct.listings_eq member]
    exact List.flatMap_singleton' _
  constructor
  · intro grouped
    obtain ⟨d, member, ⟨u, listed, same⟩, rfl⟩ := group_cases valid grouped
    rw [once member]
    exact ⟨d, member, rfl, List.ne_nil_of_mem (List.mem_filter.mpr ⟨listed, by simpa using same⟩)⟩
  · rintro ⟨d, member, rfl, some_use⟩
    obtain ⟨u, inside⟩ := List.exists_mem_of_ne_nil _ some_use
    obtain ⟨listed, same⟩ := List.mem_filter.mp inside
    obtain ⟨group, grouped, key, -⟩ := exists_group valid member listed (by simpa using same)
    obtain ⟨e, among, -, rfl⟩ := group_cases valid grouped
    obtain rfl := distinct.eq_of_same among member key
    rwa [once member] at grouped

end

end CrossRef
