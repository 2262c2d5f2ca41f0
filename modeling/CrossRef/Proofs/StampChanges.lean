import CrossRef.Proofs.EditHistory
import CrossRef.Proofs.StampedOptions

/-! When the stamp of options changes. A stamp is joined from those of the projects in the tree of options, and in one
outline each of these tells the versions and texts of its documents and is told by them. So two histories lead to one
stamp exactly if no project of the tree has a document in which they differ, even where references form a cycle. -/

namespace CrossRef

inductive Options.Involves : Options → ProjectId → Prop where
  | top (options : Options) : Involves options options.project
  | under {options referenced : Options} {id : ProjectId} (listed : referenced ∈ options.references)
      (inside : referenced.Involves id) : Involves options id

/-- The documents of a project are, one by one, of the same version and text in two solutions. -/
def Solution.Unchanged (s t : Solution) (id : ProjectId) : Prop :=
  ∃ p q, s.project? id = some p ∧ t.project? id = some q ∧
    List.Forall₂ Document.Alike p.documents q.documents

/-- Options of two solutions that tell what has changed between these. -/
structure Options.Compares (s t : Solution) (options others : Options) : Prop where
  projects : ∀ id, options.Involves id ↔ others.Involves id
  stamps : options.stamp = others.stamp ↔ ∀ id, options.Involves id → s.Unchanged t id

namespace Options

theorem involves_iff {options : Options} {id : ProjectId} :
    options.Involves id ↔ options.project = id ∨ ∃ referenced ∈ options.references, referenced.Involves id := by
  constructor
  · intro involved
    cases involved with
    | top => exact .inl rfl
    | under listed inside => exact .inr ⟨_, listed, inside⟩
  · rintro (rfl | ⟨referenced, listed, inside⟩)
    · exact .top options
    · exact .under listed inside

variable {s t : Solution} {references others : List Options}

theorem exists_involves_iff (paired : List.Forall₂ (Compares s t) references others) (id : ProjectId) :
    (∃ o ∈ references, o.Involves id) ↔ ∃ o ∈ others, o.Involves id := by
  induction paired with
  | nil => rfl
  | cons first _ ih => rw [List.exists_mem_cons_iff, List.exists_mem_cons_iff, first.projects, ih]

theorem forall₂_stamp_iff (paired : List.Forall₂ (Compares s t) references others) :
    List.Forall₂ (fun o p => o.stamp = p.stamp) references others ↔
      ∀ o ∈ references, ∀ id, o.Involves id → s.Unchanged t id := by
  induction paired with
  | nil => simp
  | cons first _ ih => rw [List.forall₂_cons, List.forall_mem_cons, first.stamps, ih]

/-- The options of one project tell what has changed if those that it refers to do. -/
theorem compares_project {id : ProjectId} {p q : Project} (first : s.project? id = some p)
    (second : t.project? id = some q) (outline : p.outline = q.outline)
    (paired : List.Forall₂ (Compares s t) references others) :
    Compares s t (p.options references) (q.options others) := by
  have named : p.id = q.id := congrArg Project.Outline.id outline
  obtain ⟨-, rfl⟩ := Solution.mem_of_project? first
  refine ⟨?_, ?_⟩
  · intro other
    rw [involves_iff, involves_iff]
    have top : (p.options references).project = other ↔ (q.options others).project = other :=
      (show p.id = other ↔ q.id = other by rw [named])
    exact or_congr top (exists_involves_iff paired other)
  · have own : p.stamp = q.stamp ↔ s.Unchanged t p.id := by
      rw [Project.stamp_eq_iff outline]
      constructor
      · intro same
        exact ⟨p, q, first, second, same⟩
      · rintro ⟨p', q', first', second', same⟩
        obtain rfl := Option.some.inj (first.symm.trans first')
        obtain rfl := Option.some.inj (second.symm.trans second')
        exact same
    refine (Stamp.joined_eq_iff paired).trans ?_
    rw [own, forall₂_stamp_iff paired]
    constructor
    · rintro ⟨top, below⟩ other involved
      rcases involves_iff.mp involved with rfl | ⟨o, listed, inside⟩
      · exact top
      · exact below o listed other inside
    · intro all
      exact ⟨all p.id (.top _), fun o listed other inside => all other (.under listed inside)⟩

end Options

/-- Two histories of one solution give the options of a project trees of the same projects, with the same stamp exactly
if all documents of these projects have the same version and text. -/
theorem stamps_tell_changes {base : Solution} {p : Project} (member : p ∈ base.projects) (edits others : List Edit) :
    let s := base.editedBy edits
    let t := base.editedBy others
    ∃ first second, s.options? p.id = some first ∧ t.options? p.id = some second ∧
      (∀ id, first.Involves id ↔ second.Involves id) ∧
      (first.stamp = second.stamp ↔ ∀ id, first.Involves id → s.Unchanged t id) := by
  intro s t
  have outline : s.outline = t.outline := (base.outline_editedBy edits).trans (base.outline_editedBy others).symm
  have known : ∃ q, s.project? p.id = some q := by
    have named : p.outline ∈ s.outline := (base.outline_editedBy edits).symm ▸ List.mem_map_of_mem member
    obtain ⟨q, listed, same⟩ := List.mem_map.mp named
    have id : q.id = p.id := congrArg Project.Outline.id same
    exact Option.isSome_iff_exists.mp (List.find?_isSome.mpr ⟨q, listed, by simpa using id⟩)
  obtain ⟨q, present⟩ := known
  obtain ⟨first, found⟩ := Solution.exists_options present
  have compared := Solution.options?_rel outline Options.compares_project p.id
  rw [found] at compared
  cases found' : t.options? p.id with
  | none =>
    rw [found'] at compared
    cases compared
  | some second =>
    rw [found'] at compared
    cases compared with
    | some compares => exact ⟨first, second, found, rfl, compares.projects, compares.stamps⟩

namespace Sample

/-! Two projects that refer to each other, and one beside them. -/

def left : Project := .ofFiles "Left" ⟨[], ["Right"]⟩ [(.ofText "left.ml", "let a = b")]

def right : Project := .ofFiles "Right" ⟨[], ["Left"]⟩ [(.ofText "right.ml", "let b = 1")]

def far : Project := .ofFiles "Far" ⟨[], []⟩ [(.ofText "far.ml", "")]

def ring : Solution := ⟨[far, left, right], .ofProjects [far, left, right], 0⟩

def editRight (text : String) : Edit := ⟨⟨"Right", .ofText "right.ml"⟩, text⟩

def editFar : Edit := ⟨⟨"Far", .ofText "far.ml"⟩, "let c = 1"⟩

/-- Histories of one length that give a document of the ring two texts lead to two stamps; what is edited outside the
ring does not matter. -/
theorem ring_stamps : Solution.build [left, right, far] = .ok ring ∧
    (∃ first second, (ring.editedBy [editRight "let b = 2"]).options? "Left" = some first ∧
      (ring.editedBy [editRight "let b = 3"]).options? "Left" = some second ∧ first.stamp ≠ second.stamp) ∧
    ∃ first second, (ring.editedBy [editRight "let b = 2"]).options? "Left" = some first ∧
      (ring.editedBy [editFar, editRight "let b = 2"]).options? "Left" = some second ∧ first.stamp = second.stamp := by
  have member : left ∈ ring.projects := by decide
  refine ⟨by decide, ?_, ?_⟩
  · obtain ⟨first, second, found, found', -, told⟩ :=
      stamps_tell_changes member [editRight "let b = 2"] [editRight "let b = 3"]
    refine ⟨first, second, found, found', ?_⟩
    intro same
    cases found
    obtain ⟨p, q, here, there, alike⟩ := told.mp same "Right" (.under (List.mem_cons_self ..) (.top _))
    cases here
    cases there
    have text : "let b = 2" = "let b = 3" := (List.forall₂_cons.mp alike).1.text
    exact absurd text (by decide)
  · obtain ⟨first, second, found, found', -, told⟩ :=
      stamps_tell_changes member [editRight "let b = 2"] [editFar, editRight "let b = 2"]
    refine ⟨first, second, found, found', told.mpr ?_⟩
    cases found
    intro id involved
    cases involved with
    | top => exact ⟨_, _, rfl, rfl, .cons ⟨rfl, rfl, rfl⟩ .nil⟩
    | under listed inside =>
      obtain rfl := List.mem_singleton.mp listed
      cases inside with
      | top => exact ⟨_, _, rfl, rfl, .cons ⟨rfl, rfl, rfl⟩ .nil⟩
      | under listed => cases listed

end Sample

end CrossRef
