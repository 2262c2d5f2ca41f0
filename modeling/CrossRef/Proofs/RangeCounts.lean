import CrossRef.Proofs.LocatedUses
import CrossRef.Session
import Mathlib.Data.Finset.Card

/-! How often a range counts. Of the uses at one place the first is kept, so in the group of a document each range stands
as often as the project lists the file. The uses that are counted are as many as there are pairs of a document and a range
exactly if no project lists the file of a use twice. -/

namespace CrossRef

namespace Solution

/-- The pairs of a document and a range of its file at which there are uses. -/
def usedRanges (s : Solution) (uses : List Use) : Finset ((ProjectId × List Component) × Range) :=
  (s.documents.flatMap fun d =>
    (uses.filter fun u => d.path.Same u.place.file).map fun u => (d.id.key, u.place.range)).toFinset

/-- No project lists the file of a use twice. -/
def ListsOnce (s : Solution) (uses : List Use) : Prop :=
  ∀ d ∈ s.documents, (∃ u ∈ uses, d.path.Same u.place.file) → s.listings d.id = 1

end Solution

variable {s : Solution} {uses : List Use} {group : DocumentUses}

private theorem exists_distinctPlace {u : Use} (member : u ∈ uses) :
    ∃ v ∈ distinctPlaces uses, v.place.key = u.place.key :=
  List.mem_map.mp ((mem_map_distinctBy _ _ _).mpr (List.mem_map_of_mem member))

theorem exists_use_iff {path : Path} :
    (∃ u ∈ distinctPlaces uses, path.Same u.place.file) ↔ ∃ u ∈ uses, path.Same u.place.file := by
  constructor
  · rintro ⟨u, kept, same⟩
    exact ⟨u, (distinctBy_sublist _ _).subset kept, same⟩
  · rintro ⟨u, member, same⟩
    obtain ⟨v, kept, key⟩ := exists_distinctPlace member
    exact ⟨v, kept, same.trans (Eq.symm (congrArg Prod.fst key))⟩

theorem nodup_copies_iff {α β : Type} {f : α → β} {xs : List α} {n : Nat} (some_element : xs ≠ []) (some_copy : 0 < n)
    (different : (xs.map f).Nodup) : ((xs.flatMap (List.replicate n)).map f).Nodup ↔ n = 1 := by
  constructor
  · intro copies
    obtain ⟨x, rest, rfl⟩ := List.exists_cons_of_ne_nil some_element
    rw [List.flatMap_cons, List.map_append, List.map_replicate] at copies
    have first := List.nodup_replicate.mp (List.nodup_append.mp copies).1
    omega
  · rintro rfl
    rwa [show xs.flatMap (List.replicate 1) = xs from List.flatMap_singleton' xs]

/-- A group of distinct places has each range once exactly if the project lists the file once. -/
theorem nodup_ranges_iff (valid : WellFormed s) :
    (∀ group ∈ groupByDocument (distinctPlaces uses) s, (group.uses.map (·.place.range)).Nodup) ↔
      s.ListsOnce uses := by
  have filled {d : Document} (used : ∃ u ∈ distinctPlaces uses, d.path.Same u.place.file) :
      (distinctPlaces uses).filter (fun u => d.path.Same u.place.file) ≠ [] := by
    obtain ⟨u, kept, same⟩ := used
    exact List.ne_nil_of_mem (List.mem_filter.mpr ⟨kept, by simpa using same⟩)
  constructor
  · intro once d member used
    obtain ⟨u, kept, same⟩ := exists_use_iff.mpr used
    obtain ⟨group, grouped, heads, -⟩ := exists_group valid member kept same
    obtain ⟨e, listed, used, rfl⟩ := group_cases valid grouped
    rw [← s.listings_of_same heads]
    exact (nodup_copies_iff (filled used) (Solution.listings_pos listed) (nodup_ranges e uses)).mp (once _ grouped)
  · intro once group grouped
    obtain ⟨d, member, used, rfl⟩ := group_cases valid grouped
    exact (nodup_copies_iff (filled used) (Solution.listings_pos member) (nodup_ranges d uses)).mpr
      (once d member (exists_use_iff.mp used))

def rangesOfGroups (groups : List DocumentUses) : List ((ProjectId × List Component) × Range) :=
  groups.flatMap fun group => group.uses.map fun u => (group.document.key, u.place.range)

theorem mem_rangesOfGroups (valid : WellFormed s) {pair : (ProjectId × List Component) × Range} :
    pair ∈ rangesOfGroups (groupByDocument (distinctPlaces uses) s) ↔ pair ∈ s.usedRanges uses := by
  simp only [rangesOfGroups, Solution.usedRanges, List.mem_toFinset, List.mem_flatMap, List.mem_map, List.mem_filter,
    decide_eq_true_eq]
  constructor
  · rintro ⟨group, grouped, u, inside, rfl⟩
    obtain ⟨d, member, -, rfl⟩ := group_cases valid grouped
    obtain ⟨v, kept, copy⟩ := List.mem_flatMap.mp inside
    obtain rfl := List.eq_of_mem_replicate copy
    obtain ⟨kept, same⟩ := List.mem_filter.mp kept
    exact ⟨d, member, u, ⟨(distinctBy_sublist _ _).subset kept, by simpa using same⟩, rfl⟩
  · rintro ⟨d, member, u, ⟨listed, same⟩, rfl⟩
    obtain ⟨v, kept, key⟩ := exists_distinctPlace listed
    have file : d.path.Same v.place.file := same.trans (Eq.symm (congrArg Prod.fst key))
    obtain ⟨group, grouped, heads, inside⟩ := exists_group valid member kept file
    have range : v.place.range = u.place.range := congrArg Prod.snd key
    exact ⟨group, grouped, v, inside, Prod.ext heads range⟩

theorem nodup_rangesOfGroups_iff :
    (rangesOfGroups (groupByDocument uses s)).Nodup ↔
      ∀ group ∈ groupByDocument uses s, (group.uses.map (·.place.range)).Nodup := by
  have apart : (groupByDocument uses s).Pairwise fun g h =>
      List.Disjoint (g.uses.map fun u => (g.document.key, u.place.range))
        (h.uses.map fun u => (h.document.key, u.place.range)) := by
    refine (pairwise_groupByDocument uses s).imp fun other pair first second => ?_
    obtain ⟨u, -, rfl⟩ := List.mem_map.mp first
    obtain ⟨v, -, same⟩ := List.mem_map.mp second
    exact other (congrArg Prod.fst same)
  have tagged (group : DocumentUses) : (group.uses.map fun u => (group.document.key, u.place.range)).Nodup ↔
      (group.uses.map (·.place.range)).Nodup := by
    have tag : (Prod.mk group.document.key : Range → _).Injective := fun _ _ same => congrArg Prod.snd same
    have split : (group.uses.map fun u => (group.document.key, u.place.range)) =
        (group.uses.map (·.place.range)).map (Prod.mk group.document.key) := by simp
    rw [split, List.nodup_map_iff tag]
  simp only [rangesOfGroups, List.nodup_flatMap, tagged]
  exact and_iff_left apart

/-- Neither the order of the uses in a group nor whose uses they are makes a difference to their number. -/
theorem References.count_eq (symbol : Symbol) (visibility : Visibility) (groups : List DocumentUses)
    (before : Use → Use → Bool) :
    References.count ⟨symbol, visibility, groups.map fun group =>
      { group with uses := group.uses.mergeSort before }⟩ = (rangesOfGroups groups).length := by
  simp only [References.count, rangesOfGroups, List.length_flatMap, List.map_map, Function.comp_def,
    List.length_mergeSort, List.length_map]

/-- Of some uses the first one at each place is kept, and the others are left out. Each document in whose file there are
uses heads one group of those that are kept there, and nothing else does. Each of them is in the group as often as the
project lists the file, so every group has each range once, and all are as many as there are pairs of a document and a
range, exactly if no project lists the file of a use twice. -/
theorem ranges_once_iff_listed_once {s : Solution} (run : Reachable s) (uses : List Use) (symbol : Symbol)
    (visibility : Visibility) :
    let kept := distinctPlaces uses
    let groups := groupByDocument kept s
    let references : References := ⟨symbol, visibility, groups.map fun group =>
      { group with uses := group.uses.mergeSort fun u v => (compare u.place v.place).isLE }⟩
    (kept.Sublist uses ∧ (∀ u, u ∈ kept ↔ uses.find? (·.place.key = u.place.key) = some u) ∧
      ∀ u ∈ uses, ∃ v ∈ kept, v.place.key = u.place.key) ∧
    (groups.Pairwise (fun g h => ¬h.document.Same g.document) ∧
      ∀ d ∈ s.documents, (∃ group ∈ groups, group.document.Same d.id) ↔ ∃ u ∈ uses, d.path.Same u.place.file) ∧
    (∀ group ∈ groups, ∃ d ∈ s.documents, group =
      ⟨d.id, (kept.filter fun u => d.path.Same u.place.file).flatMap (List.replicate (s.listings d.id))⟩) ∧
    ((∀ group ∈ groups, (group.uses.map (·.place.range)).Nodup) ↔ s.ListsOnce uses) ∧
    (references.count = (s.usedRanges uses).card ↔ s.ListsOnce uses) := by
  intro kept groups references
  have valid := run.wellFormed
  refine ⟨⟨distinctBy_sublist _ _, fun u => mem_distinctBy_iff _, fun u => exists_distinctPlace⟩,
    ⟨pairwise_groupByDocument kept s, ?_⟩, ?_, nodup_ranges_iff valid, ?_⟩
  · intro d member
    constructor
    · rintro ⟨group, grouped, heads⟩
      obtain ⟨e, -, used, rfl⟩ := group_cases valid grouped
      obtain ⟨u, listed, same⟩ := exists_use_iff.mp used
      exact ⟨u, listed, (Eq.symm (congrArg Prod.snd heads) : d.path.Same e.path).trans same⟩
    · intro used
      obtain ⟨u, listed, same⟩ := exists_use_iff.mpr used
      obtain ⟨group, grouped, heads, -⟩ := exists_group valid member listed same
      exact ⟨group, grouped, heads⟩
  · intro group grouped
    obtain ⟨d, member, -, made⟩ := group_cases valid grouped
    exact ⟨d, member, made⟩
  · have pairs : (rangesOfGroups groups).toFinset = s.usedRanges uses := by
      ext pair
      rw [List.mem_toFinset, mem_rangesOfGroups valid]
    have counted : (rangesOfGroups groups).length = (rangesOfGroups groups).toFinset.card ↔
        (rangesOfGroups groups).Nodup := eq_comm.trans Multiset.toFinset_card_eq_card_iff_nodup
    rw [References.count_eq, ← pairs, counted, nodup_rangesOfGroups_iff, nodup_ranges_iff valid]

namespace Sample

def spotted (file : Path) (kind : Occurrence) : Use :=
  ⟨⟨⟨"a"⟩, "a", .value, .everywhere, false, none⟩, ⟨file, .onLine 0 4 5⟩, kind⟩

def sightings : List Use :=
  [spotted library.path .use, spotted library.path .inType, spotted client.path .use]

theorem sightings_counted :
    let groups := groupByDocument (distinctPlaces sightings) solution
    solution.ListsOnce sightings ∧ (∀ group ∈ groups, (group.uses.map (·.place.range)).Nodup) ∧
      References.count ⟨(spotted library.path .use).symbol, .currentDocument, groups.map fun group =>
        { group with uses := group.uses.mergeSort fun u v => (compare u.place v.place).isLE }⟩ = 2 := by
  intro groups
  have distinct : solution.Distinct := by
    rw [Solution.Distinct]
    decide
  have once : solution.ListsOnce sightings := fun d member _ => distinct.listings_eq member
  obtain ⟨-, -, -, ranges, count⟩ := ranges_once_iff_listed_once reachable sightings
    (spotted library.path .use).symbol .currentDocument
  exact ⟨once, ranges.mpr once, (count.mpr once).trans (by decide)⟩

def relisting : Project :=
  .ofFiles "Core" ⟨[], []⟩ [(.ofText "a.ml", "let a = 1"), (.ofText "a.ml", "let a = 1")]

def relisted : Solution := ⟨[relisting], .ofProjects [relisting], 0⟩

/-- One use at one place of one file is in the group of its document twice, and counts twice. -/
theorem range_counts_twice :
    let a := spotted (.ofText "a.ml") .definition
    let groups := groupByDocument (distinctPlaces [a]) relisted
    Solution.build [relisting] = .ok relisted ∧ groups = [⟨⟨"Core", .ofText "a.ml"⟩, [a, a]⟩] ∧
      References.count ⟨a.symbol, .currentDocument, groups⟩ = 2 ∧ (relisted.usedRanges [a]).card = 1 := by
  intro a groups
  have documents : relisted.documentsOf (.ofText "a.ml") = [⟨"Core", .ofText "a.ml"⟩, ⟨"Core", .ofText "a.ml"⟩] := by
    decide
  have twice : groups = [⟨⟨"Core", .ofText "a.ml"⟩, [a, a]⟩] := by
    simp [groups, a, spotted, groupByDocument, distinctPlaces, documents, Buckets.get_ofList]
  refine ⟨by decide, twice, ?_, by decide⟩
  rw [twice]
  rfl

end Sample

end CrossRef
