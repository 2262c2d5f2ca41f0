import CrossRef.Proofs.SimultaneousReplacement
import CrossRef.Proofs.SolutionRuns
import CrossRef.Rename.Plan
import Mathlib.Data.List.Forall2

/-! Carrying out a plan, whatever has become of the solution since it was made. Each document is changed at
most once, only where its text still holds the name of the symbol, and nothing else of the solution changes
but the version numbers. -/

namespace CrossRef

namespace Plan

def rewritten (plan : Plan) (text : String) (group : DocumentUses) : String :=
  Rename.replace plan.strategy text plan.symbol.name plan.new (group.uses.map (·.place.range))

/-- A document before and after a change: the same, or the next version with the uses of its group renamed. -/
inductive Rewrites (plan : Plan) (groups : List DocumentUses) (d : Document) : Document → Prop where
  | kept : Rewrites plan groups d d
  | edited (group : DocumentUses) (member : group ∈ groups) (named : group.document.Same d.id)
      (differs : plan.rewritten d.text group ≠ d.text) :
      Rewrites plan groups d (d.withText (plan.rewritten d.text group))

end Plan

def differences (before after : List Document) : Nat :=
  (before.zip after).countP fun (d, e) => d ≠ e

namespace Plan

variable {plan : Plan} {groups : List DocumentUses}

theorem Rewrites.id_eq {d e : Document} (change : plan.Rewrites groups d e) : e.id = d.id := by
  cases change <;> rfl

theorem Rewrites.mono {more : List DocumentUses} {d e : Document} (change : plan.Rewrites groups d e)
    (wider : ∀ group ∈ groups, group ∈ more) : plan.Rewrites more d e := by
  cases change with
  | kept => exact .kept
  | edited group member named differs => exact .edited group (wider group member) named differs

private theorem withText_ne (d : Document) (text : String) : d ≠ d.withText text := by
  intro same
  have versions : d.version = d.version + 1 := congrArg Document.version same
  omega

private theorem differences_cons (d e : Document) (before after : List Document) :
    differences (d :: before) (e :: after) = differences before after + if d = e then 0 else 1 := by
  by_cases same : d = e <;> simp [differences, same]

private theorem differences_self (documents : List Document) : differences documents documents = 0 := by
  induction documents with
  | nil => rfl
  | cons d rest ih => simp [differences_cons, ih]

private theorem differences_append (front before after : List Document) :
    differences (front ++ before) (front ++ after) = differences before after := by
  induction front with
  | nil => rfl
  | cons d rest ih => simp [differences_cons, ih]

private theorem rewrites_self (documents : List Document) :
    List.Forall₂ (plan.Rewrites groups) documents documents :=
  List.forall₂_same.mpr fun _ _ => .kept

/-- Two changes that are about different documents are one change. -/
private theorem rewrites_trans {group : DocumentUses} {before middle after : List Document}
    (fresh : ∀ other ∈ groups, ¬other.document.Same group.document)
    (first : List.Forall₂ (plan.Rewrites [group]) before middle)
    (second : List.Forall₂ (plan.Rewrites groups) middle after) :
    List.Forall₂ (plan.Rewrites (group :: groups)) before after ∧
      differences before after = differences before middle + differences middle after := by
  induction first generalizing after with
  | nil =>
    cases second
    exact ⟨.nil, rfl⟩
  | @cons d e ds es change rest ih =>
    cases second with
    | @cons _ f _ fs next later =>
      obtain ⟨joined, counts⟩ := ih later
      have both : plan.Rewrites (group :: groups) d f ∧ (d = e ∨ e = f) := by
        cases change with
        | kept => exact ⟨next.mono fun other member => List.mem_cons_of_mem _ member, .inl rfl⟩
        | edited only single named differs =>
          obtain rfl := List.mem_singleton.mp single
          cases next with
          | kept => exact ⟨.edited only (List.mem_cons_self ..) named differs, .inr rfl⟩
          | edited other member same _ => exact absurd (same.trans named.symm) (fresh other member)
      refine ⟨.cons both.1 joined, ?_⟩
      rw [differences_cons, differences_cons, differences_cons, counts]
      rcases both.2 with rfl | rfl
      · simp only [if_true]
        omega
      · simp only [if_true]
        omega

theorem changeDocument_eq (plan : Plan) (s : Solution) (group : DocumentUses) :
    plan.changeDocument s group =
      match s.document? group.document with
      | none => .ok s
      | some d =>
        if plan.rewritten d.text group = d.text then .ok s
        else (s.withText group.document (plan.rewritten d.text group)).mapError .solution :=
  rfl

/-- One step: at most one document is changed, and then the solution counts it. -/
theorem changeDocument_eq_ok {s t : Solution} {group : DocumentUses} (valid : WellFormed s)
    (step : plan.changeDocument s group = .ok t) :
    t.outline = s.outline ∧ t.index = s.index ∧
      List.Forall₂ (plan.Rewrites [group]) s.documents t.documents ∧
      t.version = s.version + differences s.documents t.documents := by
  have unchanged : t = s → t.outline = s.outline ∧ t.index = s.index ∧
      List.Forall₂ (plan.Rewrites [group]) s.documents t.documents ∧
      t.version = s.version + differences s.documents t.documents := by
    rintro rfl
    exact ⟨rfl, rfl, rewrites_self _, by simp [differences_self]⟩
  rw [changeDocument_eq] at step
  split at step
  · cases step
    exact unchanged rfl
  · rename_i document found
    split at step
    · cases step
      exact unchanged rfl
    · rename_i differs
      cases edit : s.withText group.document (plan.rewritten document.text group) with
      | error e =>
        rw [edit] at step
        cases step
      | ok u =>
        rw [edit] at step
        cases step
        refine ⟨Solution.withText_outline edit, Solution.withText_index edit, ?_⟩
        obtain ⟨front, d, back, whole, skipped, hit, changed, version⟩ := valid.withText_documents edit
        rw [valid.document?_eq_find?, whole, List.find?_append, List.find?_eq_none.mpr (by simpa using skipped),
          Option.none_or, List.find?_cons_of_pos (by simpa using hit)] at found
        obtain rfl := Option.some.inj found
        rw [whole, changed, version]
        constructor
        · refine List.rel_append (rewrites_self front) (.cons ?_ (rewrites_self back))
          exact .edited group (List.mem_singleton_self _) hit.symm differs
        · rw [differences_append, differences_cons, differences_self, if_neg (withText_ne _ _)]

theorem change_eq_ok {s t : Solution} (valid : WellFormed s)
    (distinct : groups.Pairwise fun a b => ¬b.document.Same a.document) (success : plan.change s groups = .ok t) :
    t.outline = s.outline ∧ t.index = s.index ∧
      List.Forall₂ (plan.Rewrites groups) s.documents t.documents ∧
      t.version = s.version + differences s.documents t.documents := by
  induction groups generalizing s with
  | nil =>
    cases success
    exact ⟨rfl, rfl, rewrites_self _, by simp [differences_self]⟩
  | cons group rest ih =>
    obtain ⟨fresh, distinct⟩ := List.pairwise_cons.mp distinct
    rw [change, List.foldlM_cons] at success
    obtain ⟨u, step, later⟩ := bind_eq_ok success
    obtain ⟨outline, index, first, version⟩ := changeDocument_eq_ok valid step
    obtain ⟨outlines, indexes, second, versions⟩ := ih (valid.of_outline outline index) distinct later
    obtain ⟨joined, counts⟩ := rewrites_trans fresh first second
    exact ⟨outlines.trans outline, indexes.trans index, joined, by omega⟩

end Plan

theorem pairwise_groupByDocument (uses : List Use) (s : Solution) :
    (groupByDocument uses s).Pairwise fun a b => ¬b.document.Same a.document := by
  simp only [groupByDocument]
  rw [List.pairwise_map]
  have distinct := pairwise_distinctBy DocumentId.key
    ((uses.flatMap fun u => (s.documentsOf u.place.file).map fun id => (id, u)).map (·.1))
  have sorted := (List.mergeSort_perm _ fun a b : DocumentId => (compare a b).isLE).symm.pairwise distinct
    fun different => Ne.symm different
  exact sorted.imp fun different same => different same.symm

namespace Service

section

variable {m : Type → Type} [Monad m] (service : Service m) {plan : Plan} {s : Solution}

theorem locations_of_projects {ids : List ProjectId} {isInternal : Bool}
    (seen : plan.visibility = .projects ids isInternal) :
    service.locations plan s false = service.usesAcross plan.symbol plan.visibility (usesOf · plan.fileUses) s false := by
  simp only [locations, seen]
  rfl

theorem locations_of_currentDocument (seen : plan.visibility = .currentDocument) :
    service.locations plan s false = (do
      match ← service.originUses plan s with
      | none => return []
      | some fileUses => service.usesAcross plan.symbol .currentDocument (usesOf · fileUses) s false) := by
  simp only [locations, seen]
  rfl

end

variable {σ : Type} (service : Service (StateM σ))

theorem bind_run_eq_ok {ε α β : Type} {x : ExceptT ε (StateM σ) α} {next : α → ExceptT ε (StateM σ) β}
    {result : β} {state after : σ} (success : (x >>= next).run.run state = (.ok result, after)) :
    ∃ value middle, x.run.run state = (.ok value, middle) ∧ (next value).run.run middle = (.ok result, after) := by
  rw [ExceptT.run_bind, StateT.run_bind] at success
  rcases first : x.run.run state with ⟨outcome, middle⟩
  rw [first] at success
  cases outcome with
  | error e => cases success
  | ok value => exact ⟨value, middle, rfl, success⟩

private theorem usesAcross_eq_ok {symbol : Symbol} {visibility : Visibility} {inFile : Symbol → List Use} {s : Solution}
    {cancelled : Bool} {groups : List DocumentUses} {state after : σ}
    (success : (service.usesAcross symbol visibility inFile s cancelled).run.run state = (.ok groups, after)) :
    ∃ uses, groups = groupByDocument (distinctPlaces uses) s := by
  cases cancelled with
  | true => cases success
  | false =>
    unfold usesAcross at success
    cases visibility with
    | currentDocument =>
      cases success
      exact ⟨_, rfl⟩
    | projects ids isInternal =>
      obtain ⟨uses, middle, -, made⟩ := bind_run_eq_ok success
      cases made
      exact ⟨uses, rfl⟩

private theorem locations_eq_ok {plan : Plan} {s : Solution} {cancelled : Bool} {groups : List DocumentUses}
    {state after : σ} (success : (service.locations plan s cancelled).run.run state = (.ok groups, after)) :
    ∃ uses, groups = groupByDocument uses s := by
  cases cancelled with
  | true => cases success
  | false =>
    cases seen : plan.visibility with
    | projects ids isInternal =>
      rw [service.locations_of_projects seen] at success
      obtain ⟨uses, rfl⟩ := service.usesAcross_eq_ok success
      exact ⟨_, rfl⟩
    | currentDocument =>
      rw [service.locations_of_currentDocument seen] at success
      obtain ⟨found, middle, -, done⟩ := bind_run_eq_ok success
      cases found with
      | none =>
        cases done
        exact ⟨[], by simp [groupByDocument]⟩
      | some fileUses =>
        obtain ⟨uses, rfl⟩ := service.usesAcross_eq_ok done
        exact ⟨_, rfl⟩

private theorem pairwise_locations {plan : Plan} {s : Solution} {cancelled : Bool} {groups : List DocumentUses}
    {state after : σ} (success : (service.locations plan s cancelled).run.run state = (.ok groups, after)) :
    groups.Pairwise fun a b => ¬b.document.Same a.document := by
  obtain ⟨uses, rfl⟩ := service.locations_eq_ok success
  exact pairwise_groupByDocument _ s

theorem apply_eq_ok {plan : Plan} {s t : Solution} {cancelled : Bool} {state after : σ}
    (success : (service.apply plan s cancelled).run.run state = (.ok t, after)) :
    ∃ uses, plan.change s (groupByDocument uses s) = .ok t := by
  obtain ⟨groups, middle, located, changed⟩ := bind_run_eq_ok success
  obtain ⟨uses, rfl⟩ := service.locations_eq_ok located
  refine ⟨uses, ?_⟩
  cases outcome : plan.change s (groupByDocument uses s) with
  | error e =>
    rw [outcome] at changed
    cases changed
  | ok u =>
    rw [outcome] at changed
    cases changed
    rfl

end Service

/-- The parts of a document that a change may touch: in its new text, the new name stands in place of parts
of the old one that are apart from each other and hold the name of the symbol. -/
def Plan.TouchesNames (plan : Plan) (d e : Document) : Prop :=
  ∃ spans, Rename.Apart spans ∧ Rename.Replaced plan.new spans d.text e.text ∧
    ∀ span ∈ spans, ∃ shown, span.slice? d.text = some shown ∧ Syntax.unquote shown = plan.symbol.name

private theorem Plan.Rewrites.touchesNames {plan : Plan} {groups : List DocumentUses} {d e : Document}
    (change : plan.Rewrites groups d e) (batched : plan.strategy = .batched) : plan.TouchesNames d e := by
  cases change with
  | kept => exact ⟨[], List.Pairwise.nil, Rename.ReplacedFrom.nothing .., by simp⟩
  | edited group member named differs =>
    have text : (d.withText (plan.rewritten d.text group)).text =
        Rename.batched d.text plan.symbol.name plan.new (group.uses.map (·.place.range)) := by
      simp [Document.withText, Document.ofText, Plan.rewritten, Rename.replace, batched]
    refine ⟨_, Rename.apart_accepted .., text ▸ Rename.replaced_batched .., ?_⟩
    intro span member
    exact (Rename.accepted_shows _ _ _ member).2

/-- Carrying out a plan in any solution touches the names of the symbol only, in documents where a use was
located, each of them once. -/
theorem apply_frames {σ : Type} (service : Service (StateM σ)) (plan : Plan) {s t : Solution} (run : Reachable s)
    (cancelled : Bool) {state after : σ} (success : (service.apply plan s cancelled).run.run state = (.ok t, after)) :
    ∃ groups, (service.locations plan s cancelled).run.run state = (.ok groups, after) ∧
      t.outline = s.outline ∧ t.index = s.index ∧
      t.version = s.version + differences s.documents t.documents ∧
      List.Forall₂ (fun d e => e.id = d.id ∧
        (e = d ∨ (∃ group ∈ groups, group.document.Same d.id) ∧ e.text ≠ d.text ∧ e.version = d.version + 1) ∧
        (plan.strategy = .batched → plan.TouchesNames d e)) s.documents t.documents := by
  obtain ⟨groups, middle, located, changed⟩ := Service.bind_run_eq_ok success
  have made : plan.change s groups = .ok t ∧ middle = after := by
    cases outcome : plan.change s groups with
    | error e =>
      rw [outcome] at changed
      cases changed
    | ok u =>
      rw [outcome] at changed
      cases changed
      exact ⟨rfl, rfl⟩
  obtain ⟨made, rfl⟩ := made
  obtain ⟨outline, index, rewrites, version⟩ :=
    Plan.change_eq_ok run.wellFormed (service.pairwise_locations located) made
  refine ⟨groups, located, outline, index, version, rewrites.imp fun d e change => ?_⟩
  refine ⟨change.id_eq, ?_, change.touchesNames⟩
  cases change with
  | kept => exact .inl rfl
  | edited group member named differs => exact .inr ⟨⟨group, member, named⟩, differs, rfl⟩

namespace Sample

private def symbol : Symbol := ⟨⟨"a"⟩, "a", .value, .ownFile, false, none⟩

private def use : Use := ⟨symbol, ⟨library.path, .onLine 0 4 5⟩, .definition⟩

private def plan : Plan :=
  ⟨library.id, 0, library.text, ⟨4, 1⟩, "a", "c", symbol, .currentDocument, [use], .batched⟩

private def service : Service (StateM Unit) :=
  ⟨plainChecker, Solution.options?, .precise⟩

private theorem grouped : groupByDocument (distinctPlaces [use]) solution = [⟨library.id, [use]⟩] := by
  have documents : solution.documentsOf use.place.file = [library.id] := rfl
  simp [groupByDocument, distinctPlaces, documents, Buckets.get_ofList]

private theorem rewritten : plan.rewritten library.text ⟨library.id, [use]⟩ = "let c = 1" := by
  have target : Rename.target? (.ofText library.text) library.text "a" use.place.range = some ⟨4, 1⟩ := by decide
  have accepted : Rename.accepted library.text "a" [use.place.range] = [⟨4, 1⟩] := by
    simp [Rename.accepted, target, Rename.withoutOverlaps]
  have pieces : String.join (Rename.pieces library.text "c" 0 [⟨4, 1⟩]) = "let c = 1" := by decide
  exact (congrArg (fun spans => String.join (Rename.pieces library.text "c" 0 spans)) accepted).trans pieces

private def renamed : Solution :=
  ⟨[app, .ofDocuments "Lib" ⟨[], []⟩ [library.withText "let c = 1"]], solution.index, 1⟩

private theorem applied : (service.apply plan solution false).run.run () = (.ok renamed, ()) := by
  have located : (service.locations plan solution false).run.run () =
      (.ok (groupByDocument (distinctPlaces [use]) solution), ()) := rfl
  have changed : plan.change solution [⟨library.id, [use]⟩] = .ok renamed := by
    have step : plan.changeDocument solution ⟨library.id, [use]⟩ = .ok renamed := by
      rw [Plan.changeDocument_eq]
      have found : solution.document? library.id = some library := rfl
      simp only [found, rewritten]
      rfl
    simp only [Plan.change, List.foldlM_cons, step]
    rfl
  rw [grouped] at located
  rw [Service.apply, ExceptT.run_bind, StateT.run_bind, located]
  change (liftM (plan.change solution [⟨library.id, [use]⟩]) : ExceptT Error (StateM Unit) Solution).run.run () = _
  rw [changed]
  rfl

theorem frames_library : renamed.outline = solution.outline ∧ renamed.version = solution.version + 1 ∧
    plan.TouchesNames library (library.withText "let c = 1") := by
  obtain ⟨groups, -, outline, -, version, documents⟩ := apply_frames service plan reachable false applied
  cases documents with
  | cons _ rest =>
    cases rest with
    | cons touched _ => exact ⟨outline, version, touched.2.2 rfl⟩

end Sample

end CrossRef
