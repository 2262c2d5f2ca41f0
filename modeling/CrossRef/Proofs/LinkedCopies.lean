import CrossRef.Manifest.Sources
import CrossRef.Proofs.LocatedUses
import CrossRef.Proofs.MemoryFiles
import Mathlib.Logic.Relation

/-! Copies of a file. A file that several projects list is a document in each of them. Its uses reach all of these
documents, so what is in sync stays in sync, whatever plans are carried out; and although a file is written only once,
as one of its documents has it, the disk then has the text of all of them. -/

namespace CrossRef

/-- Documents of one file have one text. -/
def Solution.InSync (s : Solution) : Prop :=
  ∀ d ∈ s.documents, ∀ e ∈ s.documents, d.path.Same e.path → d.text = e.text

/-- Some plan is carried out, with whatever checker. -/
inductive Solution.Applies (s t : Solution) : Prop
  | apply {σ : Type} (service : Service (StateM σ)) (plan : Plan) (cancelled : Bool) {state after : σ}
      (success : (service.apply plan s cancelled).run.run state = (.ok t, after))

def Solution.Becomes : Solution → Solution → Prop :=
  Relation.ReflTransGen Solution.Applies

structure Document.Follows (e d : Document) : Prop where
  id : e.id = d.id
  later : d.version ≤ e.version
  unchanged : e.version = d.version → e = d

theorem Document.Follows.trans {d e f : Document} (second : f.Follows e) (first : e.Follows d) : f.Follows d := by
  refine ⟨second.id.trans first.id, Nat.le_trans first.later second.later, ?_⟩
  intro same
  have here : e.version = d.version := Nat.le_antisymm (same ▸ second.later) first.later
  have there : f.version = e.version := same.trans here.symm
  rw [second.unchanged there, first.unchanged here]

namespace Plan

variable (plan : Plan) {s : Solution} {d e : Document}

private theorem changed_follows (groups : List DocumentUses) (d : Document) : (plan.changed groups d).Follows d := by
  refine ⟨plan.changed_id groups d, ?_, ?_⟩ <;> unfold changed edited
  all_goals cases groups.find? (·.document.Same d.id) with
    | none => simp
    | some group =>
      simp only [Option.elim]
      split <;> simp [Document.withText]

private theorem text_of_copies (valid : WellFormed s) (distinct : s.Distinct) (uses : List Use)
    (first : d ∈ s.documents) (second : e ∈ s.documents) (same : d.path.Same e.path) (text : d.text = e.text) :
    (plan.changed (groupByDocument uses s) d).text = (plan.changed (groupByDocument uses s) e).text := by
  have reached : uses.filter (fun u => d.path.Same u.place.file) = uses.filter (fun u => e.path.Same u.place.file) := by
    apply List.filter_congr
    intro u _
    exact decide_eq_decide.mpr ⟨fun here => same.symm.trans here, fun here => same.trans here⟩
  have apart := pairwise_groupByDocument uses s
  by_cases none : uses.filter (fun u => d.path.Same u.place.file) = []
  · have kept {f : Document} (listed : f ∈ s.documents) (none : uses.filter (fun u => f.path.Same u.place.file) = []) :
        plan.changed (groupByDocument uses s) f = f := by
      apply plan.changed_of_not_same
      intro group inside heads
      obtain ⟨g, member, rfl, filled⟩ := (mem_groupByDocument valid distinct).mp inside
      obtain rfl := distinct.eq_of_same member listed heads
      exact filled none
    rw [kept first none, kept second (reached ▸ none), text]
  · have headed {f : Document} (listed : f ∈ s.documents) (some : uses.filter (fun u => f.path.Same u.place.file) ≠ []) :
        (plan.changed (groupByDocument uses s) f).text =
          plan.rewritten f.text ⟨f.id, uses.filter fun u => f.path.Same u.place.file⟩ := by
      have heads := (mem_groupByDocument valid distinct).mpr ⟨f, listed, rfl, some⟩
      rw [plan.changed_of_same apart heads rfl, edited_text]
    rw [headed first none, headed second (reached ▸ none), text, reached]
    rfl

end Plan

/-- A solution that was in sync, after plans have been carried out. -/
structure Solution.Tracks (s t : Solution) : Prop where
  valid : WellFormed t
  distinct : t.Distinct
  synced : t.InSync
  follows : ∃ change : Document → Document, (∀ d, (change d).Follows d) ∧ t.documents = s.documents.map change

namespace Solution.Tracks

variable {s t u : Solution}

theorem step (tracks : s.Tracks t) (next : t.Applies u) : s.Tracks u := by
  obtain ⟨service, plan, cancelled, success⟩ := next
  obtain ⟨uses, made⟩ := service.apply_eq_ok success
  have apart := pairwise_groupByDocument uses t
  obtain ⟨outline, index, -⟩ := Plan.change_eq_ok tracks.valid apart made
  obtain ⟨v, again, documents⟩ := plan.exists_change tracks.valid tracks.distinct apart
  obtain rfl := Except.ok.inj (again.symm.trans made)
  refine ⟨tracks.valid.of_outline outline index, ?_, ?_, ?_⟩
  · rw [Solution.Distinct, documents, List.map_map]
    simp only [Function.comp_def, Plan.changed_id]
    exact tracks.distinct
  · intro d first e second same
    obtain ⟨d, inside, rfl⟩ := List.mem_map.mp (documents ▸ first)
    obtain ⟨e, among, rfl⟩ := List.mem_map.mp (documents ▸ second)
    simp only [Document.path, Plan.changed_id] at same
    exact plan.text_of_copies tracks.valid tracks.distinct uses inside among same (tracks.synced d inside e among same)
  · obtain ⟨change, follows, same⟩ := tracks.follows
    refine ⟨fun d => plan.changed (groupByDocument uses t) (change d), ?_, by rw [documents, same, List.map_map]; rfl⟩
    exact fun d => (plan.changed_follows _ _).trans (follows d)

theorem run (valid : WellFormed s) (distinct : s.Distinct) (synced : s.InSync) (becomes : s.Becomes t) :
    s.Tracks t := by
  induction becomes with
  | refl =>
    have still (d : Document) : d.Follows d := ⟨rfl, Nat.le_refl _, fun _ => rfl⟩
    exact ⟨valid, distinct, synced, id, still, (List.map_id _).symm⟩
  | tail _ next ih => exact ih.step next

theorem origin (tracks : s.Tracks t) (valid : WellFormed s) (distinct : s.Distinct) {e : Document}
    (member : e ∈ t.documents) : ∃ d ∈ s.documents, s.document? e.id = some d ∧ e.Follows d := by
  obtain ⟨change, follows, documents⟩ := tracks.follows
  obtain ⟨d, listed, rfl⟩ := List.mem_map.mp (documents ▸ member)
  exact ⟨d, listed, valid.document?_of_mem distinct listed ((follows d).id ▸ rfl), follows d⟩

variable (tracks : s.Tracks t) (valid : WellFormed s) (distinct : s.Distinct)

include tracks valid distinct

theorem mem_changedSince {id : DocumentId} :
    id ∈ t.changedSince s ↔ ∃ e ∈ t.documents, e.id = id ∧ s.document? e.id ≠ some e := by
  simp only [Solution.changedSince, List.mem_map, List.mem_filter, and_assoc]
  apply exists_congr
  intro e
  apply and_congr_right
  intro member
  obtain ⟨d, -, present, follows⟩ := tracks.origin valid distinct member
  have differs : (d.version != e.version) = true ↔ ¬some d = some e := by
    rw [bne_iff_ne, Option.some.injEq]
    exact not_congr ⟨fun same => (follows.unchanged same.symm).symm, congrArg Document.version⟩
  rw [present, Option.all_some, differs, and_comm]

theorem mem_changedFiles {file : Path × String} (member : file ∈ t.changedFiles s) :
    ∃ e ∈ t.documents, file = (e.path, e.text) ∧ s.document? e.id ≠ some e := by
  obtain ⟨id, kept, made⟩ := List.mem_filterMap.mp member
  have changed := List.mem_mergeSort.mp ((distinctBy_sublist _ _).subset kept)
  obtain ⟨e, listed, rfl, differs⟩ := (tracks.mem_changedSince valid distinct).mp changed
  rw [tracks.valid.document?_of_mem tracks.distinct listed rfl] at made
  exact ⟨e, listed, (Option.some.inj made).symm, differs⟩

private theorem exists_changedFile {e : Document} (member : e ∈ t.documents) (differs : s.document? e.id ≠ some e) :
    ∃ file ∈ t.changedFiles s, file.1.Same e.path := by
  have changed := (tracks.mem_changedSince valid distinct).mpr ⟨e, member, rfl, differs⟩
  have sorted : e.id ∈ (t.changedSince s).mergeSort fun a b => (compare a b).isLE := List.mem_mergeSort.mpr changed
  have known := (mem_map_distinctBy (fun id : DocumentId => id.path.components) _ _).mpr (List.mem_map_of_mem sorted)
  obtain ⟨id, kept, same⟩ := List.mem_map.mp known
  have listed := List.mem_mergeSort.mp ((distinctBy_sublist _ _).subset kept)
  obtain ⟨f, inside, rfl, -⟩ := (tracks.mem_changedSince valid distinct).mp listed
  have found := tracks.valid.document?_of_mem tracks.distinct inside rfl
  exact ⟨(f.path, f.text), List.mem_filterMap.mpr ⟨f.id, kept, by rw [found]; rfl⟩, same⟩

omit tracks valid distinct in
private theorem pairwise_changedFiles : (t.changedFiles s).Pairwise fun a b => ¬a.1.Same b.1 := by
  rw [Solution.changedFiles, List.pairwise_filterMap]
  refine (pairwise_distinctBy (fun id : DocumentId => id.path.components) _).imp ?_
  intro a b different x first y second same
  obtain ⟨_, -, rfl⟩ := Option.map_eq_some_iff.mp first
  obtain ⟨_, -, rfl⟩ := Option.map_eq_some_iff.mp second
  exact different same

end Solution.Tracks

namespace Disk

variable {τ : Type} (disk : Disk (StateM τ))

def Writes : List (Path × String) → τ → τ → Prop
  | [], memory, after => memory = after
  | (path, text) :: rest, memory, after =>
    ∃ middle, (disk.write path text).run memory = (.ok (), middle) ∧ Writes rest middle after

variable {disk} {paths : List Path} {files : List (Path × String)} {memory after : τ}

/-- What is not written stays, and what is written once has its last text. -/
theorem Separates.holds (apart : disk.Separates paths) (known : ∀ file ∈ files, file.1 ∈ paths)
    (once : files.Pairwise fun a b => ¬a.1.Same b.1) (writes : disk.Writes files memory after) {q : Path}
    (asked : q ∈ paths) :
    (∀ file ∈ files, q.Same file.1 → disk.Holds after q file.2) ∧
      ((∀ file ∈ files, ¬q.Same file.1) → ∀ shown, disk.Holds memory q shown → disk.Holds after q shown) := by
  induction files generalizing memory with
  | nil =>
    obtain rfl := writes
    exact ⟨fun file absurd => (List.not_mem_nil absurd).elim, fun _ shown holds => holds⟩
  | cons file rest ih =>
    obtain ⟨middle, write, writes⟩ := writes
    obtain ⟨here, known⟩ := List.forall_mem_cons.mp known
    obtain ⟨fresh, once⟩ := List.pairwise_cons.mp once
    obtain ⟨later, untouched⟩ := ih known once writes
    constructor
    · intro other member same
      rcases List.mem_cons.mp member with rfl | member
      · have holds := apart.written _ here q asked same _ _ _ write
        exact untouched (fun next inside equal => fresh next inside (same.symm.trans equal)) _ holds
      · exact later other member same
    · intro different shown holds
      obtain ⟨other, different⟩ := List.forall_mem_cons.mp different
      exact untouched different shown (apart.kept _ here q asked other _ _ _ write shown holds)

private theorem writes_of_writeChanges {s t : Solution} {written : List Path}
    (success : (disk.writeChanges t s).run.run memory = (.ok written, after)) :
    disk.Writes (t.changedFiles s) memory after ∧ written = (t.changedFiles s).map (·.1) := by
  unfold writeChanges at success
  generalize t.changedFiles s = files at success ⊢
  induction files generalizing memory written with
  | nil =>
    cases success
    exact ⟨rfl, rfl⟩
  | cons file rest ih =>
    obtain ⟨path, text⟩ := file
    rw [List.mapM_cons] at success
    obtain ⟨first, middle, write, success⟩ := Service.bind_run_eq_ok success
    obtain ⟨others, last, more, success⟩ := Service.bind_run_eq_ok success
    cases success
    obtain ⟨writes, rfl⟩ := ih more
    obtain ⟨outcome, between, wrote, result⟩ := Service.bind_run_eq_ok write
    have wrote : (disk.write path text).run memory = (outcome, between) := by
      obtain ⟨same, rest⟩ := Prod.mk.inj wrote
      exact Prod.ext (Except.ok.inj same) rest
    cases outcome with
    | error e => cases result
    | ok _ =>
      cases result
      exact ⟨⟨middle, wrote, writes⟩, rfl⟩

end Disk

/-- Plans that are carried out one after another keep the copies of a file in sync. If the disk has the files as they
were before, then once all writes have succeeded it has every document as it is now; and the writes are one for each
file of which a document is not as it was. -/
theorem linked_copies_stay_in_sync {s t : Solution} (run : Reachable s) (distinct : s.Distinct) (synced : s.InSync)
    (becomes : s.Becomes t) :
    t.InSync ∧ ∀ {τ : Type} (disk : Disk (StateM τ)), disk.Separates (t.documents.map (·.path)) →
      ∀ memory after written, (∀ d ∈ s.documents, disk.Holds memory d.path d.text) →
        (disk.writeChanges t s).run.run memory = (.ok written, after) →
        (∀ e ∈ t.documents, disk.Holds after e.path e.text) ∧
        (∃ files, disk.Writes files memory after ∧ files.map (·.1) = written) ∧
        written.Pairwise (fun p q => ¬p.Same q) ∧
        ∀ path, (∃ p ∈ written, p.Same path) ↔
          ∃ e ∈ t.documents, e.path.Same path ∧ s.document? e.id ≠ some e := by
  have valid := run.wellFormed
  have tracks := Solution.Tracks.run valid distinct synced becomes
  refine ⟨tracks.synced, ?_⟩
  intro τ disk apart memory after written before success
  obtain ⟨writes, rfl⟩ := Disk.writes_of_writeChanges success
  refine ⟨?_, ⟨_, writes, rfl⟩, List.pairwise_map.mpr Solution.Tracks.pairwise_changedFiles, ?_⟩
  · intro e member
    have known : ∀ file ∈ t.changedFiles s, file.1 ∈ t.documents.map (·.path) := by
      intro file listed
      obtain ⟨f, inside, rfl, -⟩ := tracks.mem_changedFiles valid distinct listed
      exact List.mem_map_of_mem inside
    obtain ⟨rewritten, untouched⟩ := apart.holds known Solution.Tracks.pairwise_changedFiles writes
      (List.mem_map_of_mem member)
    by_cases copied : ∃ file ∈ t.changedFiles s, e.path.Same file.1
    · obtain ⟨file, listed, same⟩ := copied
      have holds := rewritten file listed same
      obtain ⟨f, inside, rfl, -⟩ := tracks.mem_changedFiles valid distinct listed
      rw [tracks.synced e member f inside same]
      exact holds
    · have still : s.document? e.id = some e := by
        by_contra differs
        obtain ⟨file, listed, same⟩ := tracks.exists_changedFile valid distinct member differs
        exact copied ⟨file, listed, same.symm⟩
      obtain ⟨d, listed, present, -⟩ := tracks.origin valid distinct member
      obtain rfl := Option.some.inj (present.symm.trans still)
      exact untouched (fun file listed same => copied ⟨file, listed, same⟩) _ (before d listed)
  · intro path
    constructor
    · intro ⟨p, listed, same⟩
      obtain ⟨file, member, rfl⟩ := List.mem_map.mp listed
      obtain ⟨e, inside, rfl, differs⟩ := tracks.mem_changedFiles valid distinct member
      exact ⟨e, inside, same, differs⟩
    · intro ⟨e, inside, same, differs⟩
      obtain ⟨file, member, equal⟩ := tracks.exists_changedFile valid distinct inside differs
      exact ⟨file.1, List.mem_map_of_mem member, equal.trans same⟩

namespace Sample

/-! A file that two projects list. -/

def shared (project : ProjectId) : Document :=
  .ofText ⟨project, .ofText "/lib.ml"⟩ "let a = 1"

def linking (project : ProjectId) (d : Document) : Project :=
  .ofDocuments project ⟨[], []⟩ [d]

def linked : Solution :=
  ⟨[linking "App" (shared "App"), linking "Lib" (shared "Lib")],
    .ofProjects [linking "App" (shared "App"), linking "Lib" (shared "Lib")], 0⟩

private theorem linked_reachable : Reachable linked := by
  have success : Solution.build [linking "App" (shared "App"), linking "Lib" (shared "Lib")] = .ok linked := by decide
  exact .built (by decide) success

private def met : Use := ⟨⟨⟨"a"⟩, "a", .value, .ownFile, false, none⟩, ⟨.ofText "/lib.ml", .onLine 0 4 5⟩, .definition⟩

private def copied : Plan :=
  ⟨(shared "Lib").id, 0, "let a = 1", ⟨4, 1⟩, "a", "b", met.symbol, .currentDocument, [met], .batched⟩

private def checking : Service (StateM Unit) :=
  ⟨plainChecker, Solution.options?, .precise⟩

private def relinked : Solution :=
  ⟨[linking "App" ((shared "App").withText "let b = 1"), linking "Lib" ((shared "Lib").withText "let b = 1")],
    linked.index, 2⟩

private theorem shared_sorted : ([(shared "App").id, (shared "Lib").id].mergeSort fun a b => (compare a b).isLE) =
    [(shared "App").id, (shared "Lib").id] := by
  have order : (compare (shared "App").id (shared "Lib").id).isLE = true := by decide
  exact List.mergeSort_of_pairwise (by simpa using order)

private theorem met_everywhere : groupByDocument (distinctPlaces [met]) linked =
    [⟨(shared "App").id, [met]⟩, ⟨(shared "Lib").id, [met]⟩] := by
  have documents : linked.documentsOf met.place.file = [(shared "App").id, (shared "Lib").id] := rfl
  have apart : (shared "Lib").id.key ≠ (shared "App").id.key := by decide
  simp [groupByDocument, distinctPlaces, documents, Buckets.get_ofList, apart, apart.symm, shared_sorted]

private theorem copied_rewritten (project : ProjectId) :
    copied.rewritten "let a = 1" ⟨(shared project).id, [met]⟩ = "let b = 1" := by
  have target : Rename.target? (.ofText "let a = 1") "let a = 1" "a" met.place.range = some ⟨4, 1⟩ := by decide
  have accepted : Rename.accepted "let a = 1" "a" [met.place.range] = [⟨4, 1⟩] := by
    simp [Rename.accepted, target, Rename.withoutOverlaps]
  have pieces : String.join (Rename.pieces "let a = 1" "b" 0 [⟨4, 1⟩]) = "let b = 1" := by decide
  exact (congrArg (fun spans => String.join (Rename.pieces "let a = 1" "b" 0 spans)) accepted).trans pieces

private theorem copied_changes : copied.change linked [⟨(shared "App").id, [met]⟩, ⟨(shared "Lib").id, [met]⟩] =
    .ok relinked := by
  have text (project : ProjectId) : (shared project).text = "let a = 1" := rfl
  have first : copied.changeDocument linked ⟨(shared "App").id, [met]⟩ =
      .ok ⟨[linking "App" ((shared "App").withText "let b = 1"), linking "Lib" (shared "Lib")], linked.index, 1⟩ := by
    have found : linked.document? (shared "App").id = some (shared "App") := rfl
    simp only [Plan.changeDocument_eq, found, text, copied_rewritten]
    rfl
  have second : copied.changeDocument
      ⟨[linking "App" ((shared "App").withText "let b = 1"), linking "Lib" (shared "Lib")], linked.index, 1⟩
      ⟨(shared "Lib").id, [met]⟩ = .ok relinked := by
    have found : Solution.document?
        ⟨[linking "App" ((shared "App").withText "let b = 1"), linking "Lib" (shared "Lib")], linked.index, 1⟩
        (shared "Lib").id = some (shared "Lib") := rfl
    simp only [Plan.changeDocument_eq, found, text, copied_rewritten]
    rfl
  rw [Plan.change, List.foldlM_cons, first]
  change List.foldlM copied.changeDocument _ _ = _
  rw [List.foldlM_cons, second]
  rfl

private theorem copied_applied : linked.Becomes relinked := by
  have located : (checking.locations copied linked false).run.run () =
      (.ok (groupByDocument (distinctPlaces [met]) linked), ()) := rfl
  have applied : (checking.apply copied linked false).run.run () = (.ok relinked, ()) := by
    rw [Service.apply, ExceptT.run_bind, StateT.run_bind, located, met_everywhere]
    change (liftM (copied.change linked _) : ExceptT Error (StateM Unit) Solution).run.run () = _
    rw [copied_changes]
    rfl
  exact .single (.apply checking copied false applied)

private theorem relinked_changedFiles : relinked.changedFiles linked = [(.ofText "/lib.ml", "let b = 1")] := by
  have changed : relinked.changedSince linked = [(shared "App").id, (shared "Lib").id] := by decide
  have same : (shared "Lib").id.path.components = (shared "App").id.path.components := rfl
  simp only [Solution.changedFiles, changed, shared_sorted, distinctBy_cons, distinctBy_nil, same]
  rfl

/-- The file is written once, and both projects have it as it is on the disk. -/
theorem linked_copies_written :
    let disk := Memory.disk (.ofText "/")
    ∃ after, (disk.writeChanges relinked linked).run.run ⟨[("lib.ml", .file "let a = 1".toUTF8)]⟩ =
        (.ok [.ofText "/lib.ml"], after) ∧
      ∀ e ∈ relinked.documents, disk.Holds after e.path e.text := by
  intro disk
  have written : (disk.writeChanges relinked linked).run.run ⟨[("lib.ml", .file "let a = 1".toUTF8)]⟩ =
      (.ok [.ofText "/lib.ml"], ⟨[("lib.ml", .file "let b = 1".toUTF8)]⟩) := by
    rw [Disk.writeChanges, relinked_changedFiles]
    rfl
  have leads : (Path.ofText "/lib.ml").Leads ["lib.ml"] := ⟨by decide, by decide, by unfold IsEntryName; decide⟩
  have apart : disk.Separates (relinked.documents.map (·.path)) := by
    have listed : relinked.documents.map (·.path) = [.ofText "/lib.ml", .ofText "/lib.ml"] := rfl
    apply Memory.disk_separates
    rw [listed]
    simp only [List.forall_mem_cons]
    exact ⟨⟨_, leads⟩, ⟨_, leads⟩, List.forall_mem_nil _⟩
  have before : ∀ d ∈ linked.documents, disk.Holds ⟨[("lib.ml", .file "let a = 1".toUTF8)]⟩ d.path d.text := by
    have listed : linked.documents = [shared "App", shared "Lib"] := rfl
    have holds : disk.Holds ⟨[("lib.ml", .file "let a = 1".toUTF8)]⟩ (.ofText "/lib.ml") "let a = 1" :=
      (Memory.holds_iff leads).mpr ⟨rfl, _, rfl, dif_pos "let a = 1".isValidUTF8⟩
    rw [listed]
    simp only [List.forall_mem_cons]
    exact ⟨holds, holds, List.forall_mem_nil _⟩
  obtain ⟨-, synced⟩ := linked_copies_stay_in_sync linked_reachable (by unfold Solution.Distinct; decide)
    (by unfold Solution.InSync; decide) copied_applied
  obtain ⟨holds, -⟩ := synced disk apart _ _ _ before written
  exact ⟨_, written, holds⟩

end Sample

end CrossRef
