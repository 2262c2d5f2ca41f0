import CrossRef.Proofs.SearchScope
import CrossRef.Proofs.SymbolIdentity
import Mathlib.Data.List.Forall2

/-! Among the solutions of one outline, a stamp tells what a project is checked with. Paths and references are
given by the outline, so what has to be read back from a stamp are versions and texts: a number has eight
digits, and a text ends before the one byte that no text has. -/

namespace CrossRef

def Document.source (d : Document) : SourceFile :=
  ⟨d.path, d.version, d.text⟩

structure Document.Alike (d e : Document) : Prop where
  id : d.id = e.id
  version : d.version = e.version
  text : d.text = e.text

theorem Document.Alike.source {d e : Document} (alike : d.Alike e) : d.source = e.source := by
  rw [Document.source, Document.source, Document.path, Document.path, alike.id, alike.version, alike.text]

namespace Stamp

private theorem loop_eq_append (bytes : ByteArray) (i : Nat) (front : List UInt8) :
    ByteArray.toList.loop bytes i front = front.reverse ++ bytes.data.toList.drop i := by
  induction i, front using ByteArray.toList.loop.induct bytes with
  | case1 i front inside ih =>
    have bound : i < bytes.data.toList.length := by simpa using inside
    have byte : bytes.get! i = bytes.data.toList[i] := by
      simp [ByteArray.get!, inside]
    rw [ByteArray.toList.loop, if_pos inside, ih, byte, List.reverse_cons, List.append_assoc,
      List.drop_eq_getElem_cons bound]
    rfl
  | case2 i front outside =>
    have bound : bytes.data.toList.length ≤ i := by simpa using outside
    rw [ByteArray.toList.loop, if_neg outside, List.drop_eq_nil_of_le bound, List.append_nil]

private theorem ofText_eq (text : String) : ofText text = text.toByteArray.data.toList.map UInt8.toNat := by
  rw [ofText, ByteArray.toList, loop_eq_append]
  rfl

private theorem ofText_injective : ofText.Injective := by
  intro text other same
  rw [ofText_eq, ofText_eq] at same
  have bytes := List.map_injective_iff.mpr (fun a b => UInt8.toNat_inj.mp) same
  exact String.toByteArray_inj.mp (ByteArray.ext (Array.toList_inj.mp bytes))

private theorem toNat_lt_of_utf8EncodeChar {c : Char} {byte : UInt8} (part : byte ∈ String.utf8EncodeChar c) :
    byte.toNat < 255 := by
  have small : ∀ n < 255, (UInt8.ofNat n).toNat < 255 := by
    intro n bound
    rw [UInt8.toNat_ofNat']
    omega
  simp only [String.utf8EncodeChar] at part
  repeat' split at part
  all_goals
    simp only [List.mem_cons, List.not_mem_nil, or_false] at part
    rcases part with rfl | rfl | rfl | rfl <;> exact small _ (by omega)

private theorem lt_of_mem_ofText {text : String} {byte : Nat} (member : byte ∈ ofText text) : byte < 255 := by
  rw [ofText_eq, ← String.utf8Encode_toList, List.utf8Encode, List.data_toByteArray] at member
  obtain ⟨word, among, rfl⟩ := List.mem_map.mp member
  obtain ⟨c, -, part⟩ := List.mem_flatMap.mp among
  exact toNat_lt_of_utf8EncodeChar part

theorem length_ofNumber (n : Nat) : (ofNumber n).length = 8 := by
  simp [ofNumber]

private theorem ofNumber_injective : ofNumber.Injective := by
  intro n m same
  simp [ofNumber, List.range_succ] at same
  omega

private theorem source_of_ofDocument {d e : Document} (path : d.path = e.path) {rest more : List Nat}
    (same : ofDocument d ++ rest = ofDocument e ++ more) : d.source = e.source ∧ rest = more := by
  have free : ∀ text : String, 255 ∉ ofText text := fun text inside => Nat.lt_irrefl 255 (lt_of_mem_ofText inside)
  simp only [ofDocument, ofEndedText, path, List.append_assoc, List.append_cancel_left_eq,
    List.singleton_append] at same
  obtain ⟨versions, same⟩ := List.append_inj same (by simp only [length_ofNumber])
  obtain ⟨texts, rest⟩ := Check.append_eq_append_of_first (free d.text) (free e.text) same
  refine ⟨?_, rest⟩
  rw [Document.source, Document.source, path, ofNumber_injective versions, ofText_injective texts]

theorem ofDocuments_eq_iff {documents others : List Document} (ids : documents.map (·.id) = others.map (·.id)) :
    documents.flatMap ofDocument = others.flatMap ofDocument ↔ List.Forall₂ Document.Alike documents others := by
  induction documents generalizing others with
  | nil =>
    obtain rfl := List.map_eq_nil_iff.mp ids.symm
    simp
  | cons d documents ih =>
    obtain ⟨e, others, rfl, id, ids⟩ := List.map_eq_cons_iff.mp ids.symm
    have path : d.path = e.path := congrArg DocumentId.path id.symm
    rw [List.forall₂_cons, ← ih ids.symm]
    constructor
    · intro same
      obtain ⟨source, rest⟩ := source_of_ofDocument path same
      exact ⟨⟨id.symm, congrArg SourceFile.version source, congrArg SourceFile.text source⟩, rest⟩
    · rintro ⟨alike, rest⟩
      have here : ofDocument d = ofDocument e := by rw [ofDocument, ofDocument, path, alike.version, alike.text]
      rw [List.flatMap_cons, List.flatMap_cons, here, rest]

end Stamp

theorem Project.stamp_eq_iff {p q : Project} (outline : p.outline = q.outline) :
    p.stamp = q.stamp ↔ List.Forall₂ Document.Alike p.documents q.documents := by
  have id : p.id = q.id := congrArg Outline.id outline
  have configuration : p.configuration = q.configuration := congrArg Outline.configuration outline
  rw [← Stamp.ofDocuments_eq_iff (congrArg Outline.documents outline), p.stamp_eq, q.stamp_eq, id, configuration]
  simp only [Stamp.ofProject, Stamp.written.injEq, List.append_cancel_left_eq]

private theorem Project.options_eq {p q : Project} (outline : p.outline = q.outline) (same : p.stamp = q.stamp)
    (references : List Options) : p.options references = q.options references := by
  have id : p.id = q.id := congrArg Outline.id outline
  have configuration : p.configuration = q.configuration := congrArg Outline.configuration outline
  have files : (p.options references).files = (q.options references).files := by
    have alike := ((stamp_eq_iff outline).mp same).imp fun _ _ alike => alike.source
    exact List.forall₂_eq_eq_eq ▸ List.forall₂_map_left_iff.mpr (List.forall₂_map_right_iff.mpr alike)
  simp only [Project.options] at files ⊢
  rw [id, configuration, files, same]

theorem Stamp.joined_eq_iff {related : Options → Options → Prop} {references others : List Options}
    (paired : List.Forall₂ related references others) {own other : Stamp} :
    references.foldl (fun stamp referenced => .join stamp referenced.stamp) own =
        others.foldl (fun stamp referenced => .join stamp referenced.stamp) other ↔
      own = other ∧ List.Forall₂ (fun o p => o.stamp = p.stamp) references others := by
  induction paired generalizing own other with
  | nil => simp
  | cons _ _ ih => rw [List.foldl_cons, List.foldl_cons, ih, Stamp.join.injEq, List.forall₂_cons, and_assoc]

namespace Solution

variable {s t : Solution}

private theorem outline_of_project? (s : Solution) (id : ProjectId) :
    (s.project? id).map Project.outline = s.outline.find? (·.id == id) := by
  rw [project?, outline, List.find?_map]
  rfl

theorem project_of_optionsBelow {depth : Nat} {chain : List ProjectId} {id : ProjectId} {options : Options}
    (found : s.optionsBelow depth chain id = some options) : options.project = id := by
  cases depth with
  | zero => cases found
  | succ depth =>
    rw [optionsBelow] at found
    split at found
    · cases found
    · next p present =>
      split at found
      · cases found
      · obtain rfl := Option.some.inj found
        exact (mem_of_project? present).2

/-- What joins the options of a project in two solutions of one outline, if it joins those of the projects referred to,
joins all options of the two. The induction goes down the references, which are the same ones in both. -/
theorem optionsBelow_rel (outline : s.outline = t.outline) {related : Options → Options → Prop}
    (step : ∀ {id : ProjectId} {p q : Project} {references others : List Options}, s.project? id = some p →
      t.project? id = some q → p.outline = q.outline → List.Forall₂ related references others →
      related (p.options references) (q.options others))
    (depth : Nat) (chain : List ProjectId) (id : ProjectId) :
    Option.Rel related (s.optionsBelow depth chain id) (t.optionsBelow depth chain id) := by
  induction depth generalizing chain id with
  | zero => exact .none
  | succ depth ih =>
    have projects : (s.project? id).map Project.outline = (t.project? id).map Project.outline := by
      rw [outline_of_project?, outline_of_project?, outline]
    rw [optionsBelow, optionsBelow]
    cases first : s.project? id with
    | none =>
      rw [first] at projects
      rw [Option.map_eq_none_iff.mp projects.symm]
      exact .none
    | some p =>
      rw [first] at projects
      obtain ⟨q, second, alike⟩ := Option.map_eq_some_iff.mp projects.symm
      rw [second]
      have references : p.configuration.references = q.configuration.references :=
        congrArg (fun o => o.configuration.references) alike.symm
      simp only
      split
      · exact .none
      · refine .some (step first second alike.symm ?_)
        rw [references]
        apply List.rel_filterMap _ (List.forall₂_eq_eq_eq ▸ rfl)
        rintro id _ rfl
        exact ih _ id

theorem options?_rel (outline : s.outline = t.outline) {related : Options → Options → Prop}
    (step : ∀ {id : ProjectId} {p q : Project} {references others : List Options}, s.project? id = some p →
      t.project? id = some q → p.outline = q.outline → List.Forall₂ related references others →
      related (p.options references) (q.options others))
    (id : ProjectId) : Option.Rel related (s.options? id) (t.options? id) := by
  have sizes : s.projects.length = t.projects.length := by
    simpa only [Solution.outline, List.length_map] using congrArg List.length outline
  rw [options?, options?, sizes]
  exact optionsBelow_rel outline step _ [] id

theorem options_unique (outline : s.outline = t.outline) {id other : ProjectId} {options others : Options}
    (first : s.options? id = some options) (second : t.options? other = some others)
    (project : options.project = others.project) (stamp : options.stamp = others.stamp) : options = others := by
  rw [project_of_optionsBelow first, project_of_optionsBelow second] at project
  subst project
  have related : Option.Rel (fun o p => o.stamp = p.stamp → o = p) (s.options? id) (t.options? id) := by
    refine options?_rel outline (fun _ _ alike below same => ?_) id
    obtain ⟨own, stamps⟩ := (Stamp.joined_eq_iff below).mp same
    have equal := List.Forall₂.mp (fun _ _ told same => told same) below stamps
    rw [List.forall₂_eq_eq_eq] at equal
    rw [equal]
    exact Project.options_eq alike own _
  rw [first, second] at related
  cases related with
  | some same => exact same stamp

end Solution

/-- In one outline a key stands for one document, so it is spelled in one way. -/
theorem WellFormed.id_unique {s t : Solution} (valid : WellFormed s) (other : WellFormed t)
    (outline : s.outline = t.outline) {id wanted : DocumentId} {d e : Document} (first : s.document? id = some d)
    (second : t.document? wanted = some e) (same : d.id.Same e.id) : d.id = e.id := by
  have ids : ∀ {u : Solution}, WellFormed u → ∀ {id : DocumentId} {d : Document}, u.document? id = some d →
      (u.outline.flatMap (·.documents)).find? (·.Same d.id) = some d.id := by
    intro u valid id d found
    rw [valid.document?_eq_find?] at found
    have key : d.id.Same id := by simpa using List.find?_some found
    have named : ∀ other : DocumentId, other.Same id ↔ other.Same d.id := by
      intro other
      simp only [DocumentId.Same, show d.id.key = id.key from key]
    rw [← u.map_id_documents, List.find?_map, Function.comp_def]
    simp only [named] at found
    rw [found]
    rfl
  have left := ids valid first
  have right := ids other second
  have alike : ∀ id : DocumentId, id.Same d.id ↔ id.Same e.id := by
    intro id
    simp only [DocumentId.Same, show d.id.key = e.id.key from same]
  simp only [outline, alike] at left
  exact Option.some.inj (left.symm.trans right)

end CrossRef
