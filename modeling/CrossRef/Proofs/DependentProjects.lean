import CrossRef.Proofs.SearchScope
import Mathlib.Logic.Relation
import Mathlib.Order.Lattice.Nat

/-! Which projects depend on a project. They are found breadth first. What has been found is what has left the queue
followed by what is still in it, so the depths at which projects are found never decrease, and once the queue is empty
nothing that refers to a project found is missing. References may form cycles: no project enters the queue twice. -/

namespace CrossRef

namespace Solution

def RefersTo (s : Solution) (a b : ProjectId) : Prop :=
  ∃ p ∈ s.projects, p.id = a ∧ b ∈ p.configuration.references

/-- A chain of so many references leads from one project to another one. -/
inductive RefersIn (s : Solution) : Nat → ProjectId → ProjectId → Prop where
  | here (id : ProjectId) : RefersIn s 0 id id
  | step {n : Nat} {a b c : ProjectId} (first : s.RefersTo a b) (rest : RefersIn s n b c) : RefersIn s (n + 1) a c

noncomputable def distance (s : Solution) (a b : ProjectId) : Nat :=
  sInf {n | s.RefersIn n a b}

def freshReferrers (s : Solution) (found : List ProjectId) (current : ProjectId) : List ProjectId :=
  (s.referrers current).filter (!found.contains ·)

/-- The search as it goes on until its queue is empty, however long that takes. -/
inductive Searches (s : Solution) : (queue found result : List ProjectId) → Prop where
  | finished (found : List ProjectId) : Searches s [] found found
  | next {current : ProjectId} {queue found result : List ProjectId}
      (rest : Searches s (queue ++ s.freshReferrers found current) (found ++ s.freshReferrers found current) result) :
      Searches s (current :: queue) found result

variable {s : Solution} {start id other : ProjectId} {found done queue : List ProjectId} {depth : ProjectId → Nat}

theorem mem_referrers : other ∈ s.referrers id ↔ s.RefersTo other id := by
  simp only [referrers, RefersTo, List.mem_map, List.mem_filter, List.contains_iff_mem]
  constructor
  · rintro ⟨p, ⟨member, refers⟩, rfl⟩
    exact ⟨p, member, rfl, refers⟩
  · rintro ⟨p, member, rfl, refers⟩
    exact ⟨p, ⟨member, refers⟩, rfl⟩

theorem mem_freshReferrers : other ∈ s.freshReferrers found id ↔ s.RefersTo other id ∧ other ∉ found := by
  simp [freshReferrers, mem_referrers]

private theorem nodup_freshReferrers (valid : WellFormed s) (found : List ProjectId) (id : ProjectId) :
    (s.freshReferrers found id).Nodup := by
  have distinct : (s.referrers id).Nodup := valid.ids.sublist (List.filter_sublist.map _)
  exact distinct.filter _

private theorem transGen_iff_refersIn : Relation.TransGen s.RefersTo id other ↔ ∃ n, s.RefersIn (n + 1) id other := by
  constructor
  · intro chain
    induction chain using Relation.TransGen.head_induction_on with
    | single refers => exact ⟨0, .step refers (.here other)⟩
    | head refers _ ih =>
      obtain ⟨n, rest⟩ := ih
      exact ⟨n + 1, .step refers rest⟩
  · rintro ⟨n, chain⟩
    induction n generalizing id with
    | zero =>
      cases chain with
      | step refers rest =>
        cases rest
        exact .single refers
    | succ n ih =>
      cases chain with
      | step refers rest => exact .head refers (ih rest)

private theorem refersIn_cases {n : Nat} (chain : s.RefersIn n id other) : id = other ∨ ∃ b, s.RefersTo id b := by
  cases chain with
  | here => exact .inl rfl
  | step refers _ => exact .inr ⟨_, refers⟩

theorem reach_nil (s : Solution) (steps : Nat) (found : List ProjectId) : s.reach steps [] found = found := by
  cases steps <;> rfl

/-- What holds of the search while it runs. The depth of a project is one more than that of the project by which it was
found; along what was found depths do not decrease, and none is more than one above that of a project in the queue. -/
structure Layered (s : Solution) (start : ProjectId) (done queue : List ProjectId) (depth : ProjectId → Nat) :
    Prop where
  begins : [start] <+: done ++ queue
  zero : depth start = 0
  nodup : (done ++ queue).Nodup
  ordered : (done ++ queue).Pairwise (depth · ≤ depth ·)
  near : ∀ a ∈ done ++ queue, ∀ b ∈ queue, depth a ≤ depth b + 1
  reached : ∀ a ∈ done ++ queue, s.RefersIn (depth a) a start
  closed : ∀ a ∈ done, ∀ b, s.RefersTo b a → b ∈ done ++ queue ∧ depth b ≤ depth a + 1

namespace Layered

private theorem initial (s : Solution) (start : ProjectId) : s.Layered start [] [start] (fun _ => 0) where
  begins := List.prefix_refl _
  zero := rfl
  nodup := by simp
  ordered := by simp
  near := by simp
  reached := by
    intro a member
    obtain rfl : a = start := by simpa using member
    exact .here a
  closed := by simp

/-- Taking a project from the queue gives those that it newly finds the depth below its own. -/
theorem step (valid : WellFormed s) (layered : s.Layered start done (id :: queue) depth) :
    let fresh := s.freshReferrers (done ++ id :: queue) id
    s.Layered start (done ++ [id]) (queue ++ fresh) (fun a => if a ∈ fresh then depth id + 1 else depth a) := by
  intro fresh
  have split : (done ++ [id]) ++ (queue ++ fresh) = (done ++ id :: queue) ++ fresh := by simp
  have current : id ∈ done ++ id :: queue := by simp
  have waiting : ∀ b ∈ queue, depth id ≤ depth b := by
    have behind := (List.pairwise_append.mp layered.ordered).2.1
    exact (List.pairwise_cons.mp behind).1
  have old : ∀ a ∈ done ++ id :: queue, a ∉ fresh := fun a member new => (mem_freshReferrers.mp new).2 member
  have kept : ∀ a ∈ done ++ id :: queue, (if a ∈ fresh then depth id + 1 else depth a) = depth a :=
    fun a member => if_neg (old a member)
  have below : ∀ a ∈ fresh, (if a ∈ fresh then depth id + 1 else depth a) = depth id + 1 := fun a new => if_pos new
  have bounded : ∀ a ∈ (done ++ id :: queue) ++ fresh,
      (if a ∈ fresh then depth id + 1 else depth a) ≤ depth id + 1 := by
    intro a member
    rcases List.mem_append.mp member with known | new
    · rw [kept a known]
      exact layered.near a known id (List.mem_cons_self ..)
    · rw [below a new]
  refine ⟨?_, ?_, ?_, ?_, ?_, ?_, ?_⟩
  · rw [split]
    exact layered.begins.trans (List.prefix_append ..)
  · rw [kept start (layered.begins.subset (List.mem_singleton_self start)), layered.zero]
  · rw [split]
    exact layered.nodup.append (nodup_freshReferrers valid _ id) old
  · rw [split, List.pairwise_append]
    refine ⟨layered.ordered.imp_of_mem ?_, List.pairwise_of_forall_mem_list ?_, ?_⟩
    · intro a b first second le
      rwa [kept a first, kept b second]
    · intro a first b second
      rw [below a first, below b second]
    · intro a known b new
      rw [below b new]
      exact bounded a (List.mem_append_left _ known)
  · rw [split]
    intro a member b inside
    refine (bounded a member).trans (Nat.succ_le_succ ?_)
    rcases List.mem_append.mp inside with waits | new
    · rw [kept b (by simp [waits])]
      exact waiting b waits
    · rw [below b new]
      omega
  · rw [split]
    intro a member
    rcases List.mem_append.mp member with known | new
    · rw [kept a known]
      exact layered.reached a known
    · rw [below a new]
      exact .step (mem_freshReferrers.mp new).1 (layered.reached id current)
  · rw [split]
    intro a member b refers
    rcases List.mem_append.mp member with earlier | now
    · obtain ⟨known, le⟩ := layered.closed a earlier b refers
      refine ⟨List.mem_append_left _ known, ?_⟩
      rwa [kept b known, kept a (by simp [earlier])]
    · obtain rfl := List.mem_singleton.mp now
      have listed : b ∈ (done ++ a :: queue) ++ fresh := by
        by_cases known : b ∈ done ++ a :: queue
        · exact List.mem_append_left _ known
        · exact List.mem_append_right _ (mem_freshReferrers.mpr ⟨refers, known⟩)
      rw [kept a current]
      exact ⟨listed, bounded b listed⟩

theorem length_le (layered : s.Layered start done queue depth) : (done ++ queue).length ≤ s.projects.length + 1 := by
  have known : done ++ queue ⊆ start :: s.projects.map (·.id) := by
    intro a member
    rcases refersIn_cases (layered.reached a member) with rfl | ⟨b, ⟨p, listed, rfl, -⟩⟩
    · exact List.mem_cons_self ..
    · exact List.mem_cons_of_mem _ (List.mem_map_of_mem listed)
  simpa using layered.nodup.length_le_of_subset known

/-- With a step for each project that can still be found, the search comes to its end. -/
theorem run (valid : WellFormed s) {steps : Nat} (layered : s.Layered start done queue depth)
    (enough : s.projects.length + 1 ≤ steps + done.length) :
    s.Searches queue (done ++ queue) (s.reach steps queue (done ++ queue)) ∧
      ∃ depth, s.Layered start (s.reach steps queue (done ++ queue)) [] depth := by
  induction steps generalizing done queue depth with
  | zero =>
    have bound := layered.length_le
    rw [List.length_append] at bound
    obtain rfl : queue = [] := List.eq_nil_of_length_eq_zero (by omega)
    rw [List.append_nil, reach_nil]
    exact ⟨.finished done, depth, layered⟩
  | succ steps ih =>
    cases queue with
    | nil =>
      rw [List.append_nil, reach_nil]
      exact ⟨.finished done, depth, layered⟩
    | cons id queue =>
      obtain ⟨ends, deeper⟩ := ih (layered.step valid) (by simp; omega)
      have split : done ++ [id] ++ (queue ++ s.freshReferrers (done ++ id :: queue) id) =
          done ++ id :: queue ++ s.freshReferrers (done ++ id :: queue) id := by simp
      rw [split] at ends deeper
      exact ⟨.next ends, deeper⟩

/-- When the queue is empty, whatever a chain of references leads from has been found, and not later. -/
theorem depth_le (layered : s.Layered start done [] depth) {n : Nat} (chain : s.RefersIn n other start) :
    other ∈ done ∧ depth other ≤ n := by
  induction n generalizing other with
  | zero =>
    cases chain
    have found := layered.begins.subset (List.mem_singleton_self start)
    exact ⟨by simpa using found, Nat.le_of_eq layered.zero⟩
  | succ n ih =>
    cases chain with
    | step refers rest =>
      obtain ⟨member, le⟩ := ih rest
      obtain ⟨known, next⟩ := layered.closed _ member _ refers
      exact ⟨by simpa using known, by omega⟩

private theorem distance_eq (layered : s.Layered start done [] depth) (member : other ∈ done) :
    s.distance other start = depth other := by
  have least : IsLeast {n | s.RefersIn n other start} (depth other) :=
    ⟨layered.reached other (by simpa using member), fun _ chain => (layered.depth_le chain).2⟩
  exact least.csInf_eq

end Layered

private theorem exists_layered (valid : WellFormed s) (id : ProjectId) :
    s.Searches [id] [id] (id :: s.dependents id) ∧ ∃ depth, s.Layered id (id :: s.dependents id) [] depth := by
  obtain ⟨ends, depth, layered⟩ := (Layered.initial s id).run valid (Nat.le_refl _)
  obtain ⟨rest, whole⟩ := layered.begins
  have found : id :: s.dependents id = s.reach (s.projects.length + 1) [id] [id] := by
    rw [dependents]
    simp only [List.nil_append, List.append_nil] at whole
    rw [← whole]
    rfl
  rw [found]
  exact ⟨ends, depth, layered⟩

private theorem nodup_dependents (valid : WellFormed s) (id : ProjectId) : (s.dependents id).Nodup := by
  obtain ⟨-, depth, layered⟩ := exists_layered valid id
  exact (List.nodup_cons.mp (by simpa using layered.nodup)).2

theorem mem_dependents_iff (valid : WellFormed s) :
    other ∈ s.dependents id ↔ other ≠ id ∧ Relation.TransGen s.RefersTo other id := by
  obtain ⟨-, depth, layered⟩ := exists_layered valid id
  have apart : id ∉ s.dependents id := (List.nodup_cons.mp (by simpa using layered.nodup)).1
  constructor
  · intro member
    have different : other ≠ id := fun same => apart (same ▸ member)
    have chain := layered.reached other (by simp [member])
    refine ⟨different, transGen_iff_refersIn.mpr ?_⟩
    cases height : depth other with
    | zero =>
      rw [height] at chain
      cases chain
      exact absurd rfl different
    | succ n => exact ⟨n, height ▸ chain⟩
  · rintro ⟨different, chain⟩
    obtain ⟨n, chain⟩ := transGen_iff_refersIn.mp chain
    exact (List.mem_cons.mp (layered.depth_le chain).1).resolve_left different

private theorem pairwise_distance (valid : WellFormed s) (id : ProjectId) :
    ((s.dependents id).map (s.distance · id)).Pairwise (· ≤ ·) := by
  obtain ⟨-, depth, layered⟩ := exists_layered valid id
  have ordered : (s.dependents id).Pairwise (depth · ≤ depth ·) :=
    (List.pairwise_cons.mp (by simpa using layered.ordered)).2
  refine List.pairwise_map.mpr (ordered.imp_of_mem ?_)
  intro a b first second le
  rwa [layered.distance_eq (List.mem_cons_of_mem _ first), layered.distance_eq (List.mem_cons_of_mem _ second)]

end Solution

private theorem Visibility.nodup_searchedProjects (ids : List ProjectId) (isInternal : Bool) (s : Solution) :
    ((Visibility.projects ids isInternal).searchedProjects s).Nodup :=
  pairwise_distinctBy id _

/-- The search for the dependents of a project ends and lists, the nearest first and each of them once, the other
projects from which a chain of references leads to it. So the projects that are searched for a symbol are, each of them
once, those given and, unless the symbol is internal, all that depend on one of them. -/
theorem searches_every_consumer {s : Solution} (run : Reachable s) :
    (∀ id : ProjectId, s.Searches [id] [id] (id :: s.dependents id) ∧ (s.dependents id).Nodup ∧
      ((s.dependents id).map (s.distance · id)).Pairwise (· ≤ ·) ∧
      ∀ other, other ∈ s.dependents id ↔ other ≠ id ∧ Relation.TransGen s.RefersTo other id) ∧
    ∀ (ids : List ProjectId) (isInternal : Bool),
      ((Visibility.projects ids isInternal).searchedProjects s).Nodup ∧
      ∀ other, other ∈ (Visibility.projects ids isInternal).searchedProjects s ↔
        other ∈ ids ∨ isInternal = false ∧ ∃ owner ∈ ids, Relation.TransGen s.RefersTo other owner := by
  have valid := run.wellFormed
  refine ⟨?_, ?_⟩
  · intro id
    exact ⟨(Solution.exists_layered valid id).1, Solution.nodup_dependents valid id, Solution.pairwise_distance valid id,
      fun other => Solution.mem_dependents_iff valid⟩
  · intro ids isInternal
    refine ⟨Visibility.nodup_searchedProjects ids isInternal s, fun other => ?_⟩
    simp only [Visibility.mem_searchedProjects, Solution.mem_dependents_iff valid]
    constructor
    · rintro ⟨owner, listed, rfl | ⟨shown, -, chain⟩⟩
      · exact .inl listed
      · exact .inr ⟨shown, owner, listed, chain⟩
    · rintro (listed | ⟨shown, owner, listed, chain⟩)
      · exact ⟨other, listed, .inl rfl⟩
      · by_cases same : other = owner
        · exact ⟨owner, listed, .inl same⟩
        · exact ⟨owner, listed, .inr ⟨shown, same, chain⟩⟩

namespace Sample

/-- References lead from the base back to it, through the top and its sides, but it is not one of its own dependents. An
internal symbol of the base is not searched for in the sides. -/
theorem diamond_searched :
    diamond.dependents "Base" = ["Left", "Right", "Top"] ∧
    diamond.Searches ["Base"] ["Base"] ["Base", "Left", "Right", "Top"] ∧
    Relation.TransGen diamond.RefersTo "Top" "Base" ∧ Relation.TransGen diamond.RefersTo "Base" "Top" ∧
    diamond.distance "Right" "Base" ≤ diamond.distance "Top" "Base" ∧
    "Left" ∈ (Visibility.projects ["Top", "Base"] false).searchedProjects diamond ∧
    "Left" ∉ (Visibility.projects ["Top", "Base"] true).searchedProjects diamond := by
  have listed : diamond.dependents "Base" = ["Left", "Right", "Top"] := by decide
  have around : diamond.dependents "Top" = ["Base", "Left", "Right"] := by decide
  obtain ⟨dependents, searched⟩ := searches_every_consumer diamond_reachable
  obtain ⟨ends, -, ordered, base⟩ := dependents "Base"
  obtain ⟨-, -, -, top⟩ := dependents "Top"
  rw [listed] at ends ordered
  have above := ((base "Top").mp (by simp [listed])).2
  have below := ((top "Base").mp (by simp [around])).2
  have left := ((base "Left").mp (by simp [listed])).2
  refine ⟨listed, ends, above, below, ?_, ?_, ?_⟩
  · simp only [List.map_cons, List.pairwise_cons] at ordered
    exact ordered.2.1 _ (by simp)
  · exact ((searched _ false).2 "Left").mpr (.inr ⟨rfl, "Base", by simp, left⟩)
  · intro inside
    rcases ((searched _ true).2 "Left").mp inside with given | ⟨shown, -⟩
    · exact absurd given (by decide)
    · cases shown

end Sample

end CrossRef
