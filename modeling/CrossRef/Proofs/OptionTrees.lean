import CrossRef.Proofs.EditHistory
import CrossRef.Proofs.StampedOptions
import Mathlib.Data.Finset.Basic

/-! Trees of options. They are built by visiting references, with a set of the projects that are being visited: a project
enters it before its references are visited and leaves it behind them. Each visit below another one has fewer projects
left to enter, so visiting ends; and as every visit leaves the set as it was, a reference is left out only if it lies on
the chain that leads to it, not because another branch has it. -/

namespace CrossRef

namespace Solution

def optionsWhile (s : Solution) (visiting : List ProjectId) (id : ProjectId) : Option Options :=
  s.optionsBelow s.projects.length visiting id

mutual

/-- A visit of one project, with the set of those that are being visited before it and behind it. -/
inductive Visits (s : Solution) : Finset ProjectId → ProjectId → Option Options → Finset ProjectId → Prop where
  | unknown {visiting : Finset ProjectId} {id : ProjectId} (absent : s.project? id = none) :
      Visits s visiting id none visiting
  | cycle {visiting : Finset ProjectId} {id : ProjectId} {p : Project} (present : s.project? id = some p)
      (inside : p.id ∈ visiting) : Visits s visiting id none visiting
  | enter {visiting after : Finset ProjectId} {id : ProjectId} {p : Project} {references : List Options}
      (present : s.project? id = some p) (outside : p.id ∉ visiting)
      (below : VisitsEach s (insert p.id visiting) p.configuration.references references after) :
      Visits s visiting id (some (p.options references)) (after.erase p.id)

/-- Visits of projects one after another. What one leaves behind is what the next one finds. -/
inductive VisitsEach (s : Solution) :
    Finset ProjectId → List ProjectId → List Options → Finset ProjectId → Prop where
  | nil (visiting : Finset ProjectId) : VisitsEach s visiting [] [] visiting
  | cons {visiting between after : Finset ProjectId} {id : ProjectId} {rest : List ProjectId} {found : Option Options}
      {others : List Options} (first : Visits s visiting id found between)
      (later : VisitsEach s between rest others after) :
      VisitsEach s visiting (id :: rest) (found.toList ++ others) after

end

def unvisited (s : Solution) (visiting : List ProjectId) : Nat :=
  s.projects.countP (·.id ∉ visiting)

variable {s : Solution} {visiting : List ProjectId} {id : ProjectId} {p : Project}

private theorem unvisited_le (s : Solution) (visiting : List ProjectId) : s.unvisited visiting ≤ s.projects.length :=
  List.countP_le_length

private theorem unvisited_cons_lt (member : p ∈ s.projects) (outside : p.id ∉ visiting) :
    s.unvisited (p.id :: visiting) < s.unvisited visiting := by
  obtain ⟨before, after, whole⟩ := List.append_of_mem member
  have fewer (projects : List Project) :
      projects.countP (·.id ∉ p.id :: visiting) ≤ projects.countP (·.id ∉ visiting) := by
    refine List.countP_mono_left fun q _ free => ?_
    simp only [decide_eq_true_eq, List.mem_cons, not_or] at free ⊢
    exact free.2
  have front := fewer before
  have back := fewer after
  have here : decide (p.id ∉ visiting) = true := decide_eq_true outside
  have entered : decide (p.id ∉ p.id :: visiting) = false := by simp
  simp only [unvisited, whole, List.countP_append, List.countP_cons, here, entered]
  simp only [if_true, Bool.false_eq_true, if_false]
  omega

private theorem optionsBelow_of_all_visited (all : s.unvisited visiting = 0) (depth : Nat) :
    s.optionsBelow depth visiting id = none := by
  cases depth with
  | zero => rfl
  | succ depth =>
    rw [optionsBelow]
    cases present : s.project? id with
    | none => rfl
    | some p =>
      obtain ⟨member, rfl⟩ := mem_of_project? present
      have entered := List.countP_eq_zero.mp all p member
      simp only [decide_not, Bool.not_eq_true', decide_eq_false_iff_not, not_not] at entered
      simp [entered]

private theorem optionsBelow_of_enough {depth more : Nat} (enough : s.unvisited visiting ≤ depth)
    (plenty : s.unvisited visiting ≤ more) : s.optionsBelow depth visiting id = s.optionsBelow more visiting id := by
  induction depth generalizing more visiting id with
  | zero => rw [optionsBelow_of_all_visited (by omega), optionsBelow_of_all_visited (by omega)]
  | succ depth ih =>
    cases more with
    | zero => rw [optionsBelow_of_all_visited (by omega), optionsBelow_of_all_visited (by omega)]
    | succ more =>
      rw [optionsBelow, optionsBelow]
      cases present : s.project? id with
      | none => rfl
      | some p =>
        obtain ⟨member, rfl⟩ := mem_of_project? present
        by_cases inside : p.id ∈ visiting
        · simp [inside]
        · have fewer := unvisited_cons_lt member inside
          have below : s.optionsBelow depth (p.id :: visiting) = s.optionsBelow more (p.id :: visiting) :=
            funext fun reference => ih (by omega) (by omega)
          simp only [below]

private theorem optionsWhile_of_project? (present : s.project? id = some p) :
    s.optionsWhile visiting id =
      if id ∈ visiting then none
      else some (p.options (p.configuration.references.filterMap (s.optionsWhile (id :: visiting)))) := by
  obtain ⟨member, rfl⟩ := mem_of_project? present
  obtain ⟨depth, size⟩ := Nat.exists_eq_succ_of_ne_zero (List.length_pos_of_mem member).ne'
  have below := s.unvisited_le visiting
  rw [optionsWhile, size, optionsBelow, present]
  by_cases inside : p.id ∈ visiting
  · simp [inside]
  · have fewer := unvisited_cons_lt member inside
    have same : s.optionsBelow depth (p.id :: visiting) = s.optionsWhile (p.id :: visiting) :=
      funext fun reference => optionsBelow_of_enough (by omega) (s.unvisited_le _)
    simp [inside, same]

private theorem optionsWhile_of_absent (absent : s.project? id = none) : s.optionsWhile visiting id = none := by
  rw [optionsWhile]
  cases s.projects.length with
  | zero => rfl
  | succ depth => rw [optionsBelow, absent]

private theorem isSome_optionsWhile :
    (s.optionsWhile visiting id).isSome ↔ (s.project? id).isSome ∧ id ∉ visiting := by
  cases present : s.project? id with
  | none => simp [optionsWhile_of_absent present]
  | some p => by_cases inside : id ∈ visiting <;> simp [optionsWhile_of_project? present, inside]

private theorem toList_append_filterMap {α β : Type} (f : α → Option β) (a : α) (rest : List α) :
    (f a).toList ++ rest.filterMap f = (a :: rest).filterMap f := by
  cases here : f a <;> simp [here]

private theorem VisitsEach.of_each {ids : List ProjectId} {found : ProjectId → Option Options} {set : Finset ProjectId}
    (each : ∀ id ∈ ids, s.Visits set id (found id) set) : s.VisitsEach set ids (ids.filterMap found) set := by
  induction ids with
  | nil => exact .nil set
  | cons id rest ih =>
    have later := ih fun other member => each other (List.mem_cons_of_mem _ member)
    rw [← toList_append_filterMap]
    exact .cons (each id (List.mem_cons_self ..)) later

/-- A visit comes to its end, gives the options, and leaves the set of visited projects as it was. -/
theorem visits_optionsWhile (s : Solution) (visiting : List ProjectId) (id : ProjectId) :
    s.Visits visiting.toFinset id (s.optionsWhile visiting id) visiting.toFinset := by
  -- Below a visit that enters a project, fewer projects are left to enter.
  induction left : s.unvisited visiting using Nat.strong_induction_on generalizing visiting id with
  | _ count ih =>
    cases present : s.project? id with
    | none =>
      rw [optionsWhile_of_absent present]
      exact .unknown present
    | some p =>
      obtain ⟨member, rfl⟩ := mem_of_project? present
      rw [optionsWhile_of_project? present]
      by_cases inside : p.id ∈ visiting
      · rw [if_pos inside]
        exact .cycle present (by simpa using inside)
      · rw [if_neg inside]
        have fewer : s.unvisited (p.id :: visiting) < count := left ▸ unvisited_cons_lt member inside
        have each := VisitsEach.of_each fun reference (_ : reference ∈ p.configuration.references) =>
          ih _ fewer (p.id :: visiting) reference rfl
        rw [List.toFinset_cons] at each
        have entered := Visits.enter present (by simpa using inside) each
        rwa [Finset.erase_insert (by simpa using inside)] at entered

mutual

/-- A visit can end in no other way. -/
theorem Visits.eq {set after : Finset ProjectId} {id : ProjectId} {found : Option Options}
    (visits : s.Visits set id found after) (visiting : List ProjectId) (same : visiting.toFinset = set) :
    found = s.optionsWhile visiting id ∧ after = set := by
  match visits with
  | .unknown absent => exact ⟨(optionsWhile_of_absent absent).symm, rfl⟩
  | .cycle present inside =>
    obtain ⟨-, rfl⟩ := mem_of_project? present
    rw [← same, List.mem_toFinset] at inside
    exact ⟨by rw [optionsWhile_of_project? present, if_pos inside], rfl⟩
  | .enter (p := p) present outside below =>
    obtain ⟨-, rfl⟩ := mem_of_project? present
    obtain ⟨references, rfl⟩ := below.eq (p.id :: visiting) (by rw [List.toFinset_cons, same])
    refine ⟨?_, Finset.erase_insert outside⟩
    rw [← same, List.mem_toFinset] at outside
    rw [optionsWhile_of_project? present, if_neg outside, references]
termination_by structural visits

theorem VisitsEach.eq {set after : Finset ProjectId} {ids : List ProjectId} {found : List Options}
    (visits : s.VisitsEach set ids found after) (visiting : List ProjectId) (same : visiting.toFinset = set) :
    found = ids.filterMap (s.optionsWhile visiting) ∧ after = set := by
  match visits with
  | .nil _ => exact ⟨rfl, rfl⟩
  | .cons first later =>
    obtain ⟨rfl, rfl⟩ := first.eq visiting same
    obtain ⟨rfl, rfl⟩ := later.eq visiting same
    exact ⟨toList_append_filterMap .., rfl⟩
termination_by structural visits

end

theorem visits_iff {found : Option Options} {after : Finset ProjectId} :
    s.Visits visiting.toFinset id found after ↔ found = s.optionsWhile visiting id ∧ after = visiting.toFinset := by
  constructor
  · intro visits
    exact visits.eq visiting rfl
  · rintro ⟨rfl, rfl⟩
    exact s.visits_optionsWhile visiting id

end Solution

/-- A chain of projects, the last one first, leads from the top of a tree to one of its nodes. -/
inductive Options.ReachedBy (top : Options) : List ProjectId → Options → Prop where
  | top : ReachedBy top [top.project] top
  | under {chain : List ProjectId} {node referenced : Options} (above : ReachedBy top chain node)
      (listed : referenced ∈ node.references) : ReachedBy top (referenced.project :: chain) referenced

theorem Reachable.closed {s : Solution} (run : Reachable s) : s.Closed := by
  induction run with
  | built _ success => exact Solution.closed_of_build success
  | edited _ success closed => exact closed.of_outline (Solution.withText_outline success)

namespace Solution

variable {s : Solution} {visiting : List ProjectId} {id : ProjectId} {p : Project}

private theorem isSome_project? (closed : s.Closed) (member : p ∈ s.projects)
    (refers : id ∈ p.configuration.references) : (s.project? id).isSome := by
  obtain ⟨q, known, rfl⟩ := closed p member id refers
  exact List.find?_isSome.mpr ⟨q, known, by simp⟩

private theorem optionsWhile_eq_some {options : Options} (found : s.optionsWhile visiting id = some options) :
    ∃ p, s.project? id = some p ∧ id ∉ visiting ∧
      options = p.options (p.configuration.references.filterMap (s.optionsWhile (id :: visiting))) := by
  cases present : s.project? id with
  | none =>
    rw [optionsWhile_of_absent present] at found
    cases found
  | some p =>
    rw [optionsWhile_of_project? present] at found
    split at found
    · cases found
    · next outside => exact ⟨p, rfl, outside, (Option.some.inj found).symm⟩

private theorem map_some_filterMap {α β : Type} {f : α → Option β} {kept : α → Bool} {xs : List α}
    (agree : ∀ a ∈ xs, (f a).isSome ↔ kept a) : (xs.filterMap f).map some = (xs.filter kept).map f := by
  induction xs with
  | nil => rfl
  | cons a rest ih =>
    obtain ⟨here, agree⟩ := List.forall_mem_cons.mp agree
    cases found : f a with
    | none =>
      have dropped : kept a = false := by simpa [found] using here
      simpa [found, dropped] using ih agree
    | some b =>
      have stays : kept a = true := by simpa [found] using here
      simpa [found, stays] using ih agree

private theorem map_some_references (closed : s.Closed) (member : p ∈ s.projects) (visiting : List ProjectId) :
    (p.configuration.references.filterMap (s.optionsWhile visiting)).map some =
      (p.configuration.references.filter (· ∉ visiting)).map (s.optionsWhile visiting) := by
  refine map_some_filterMap fun id refers => ?_
  rw [isSome_optionsWhile, iff_true_intro (isSome_project? closed member refers), true_and, decide_eq_true_eq]

/-- The options of a node are those of its project while the chain above it is being visited. -/
theorem optionsWhile_of_reachedBy {top node : Options} {chain : List ProjectId}
    (found : s.optionsWhile visiting id = some top) (reached : top.ReachedBy chain node) :
    ∃ above, chain = node.project :: above ∧ chain.Nodup ∧
      s.optionsWhile (above ++ visiting) node.project = some node := by
  induction reached with
  | top =>
    obtain rfl : top.project = id := project_of_optionsBelow found
    exact ⟨[], rfl, List.nodup_singleton _, found⟩
  | under reached listed ih =>
    obtain ⟨above, rfl, distinct, node⟩ := ih
    obtain ⟨p, -, -, made⟩ := optionsWhile_eq_some node
    rw [made] at listed
    obtain ⟨reference, -, below⟩ := List.mem_filterMap.mp listed
    obtain rfl := project_of_optionsBelow below
    obtain ⟨-, -, outside, -⟩ := optionsWhile_eq_some below
    refine ⟨_, rfl, List.nodup_cons.mpr ⟨fun inside => outside ?_, distinct⟩, below⟩
    exact List.mem_append_left _ inside

private theorem references_of_reachedBy (closed : s.Closed) {top node : Options} {chain : List ProjectId}
    (found : s.optionsWhile visiting id = some top) (reached : top.ReachedBy chain node) :
    ∃ p, s.project? node.project = some p ∧ node = p.options node.references ∧
      node.references.map some = (p.configuration.references.filter (· ∉ chain ++ visiting)).map
        (s.optionsWhile (chain ++ visiting)) := by
  obtain ⟨above, rfl, -, here⟩ := optionsWhile_of_reachedBy found reached
  obtain ⟨p, present, -, made⟩ := optionsWhile_eq_some here
  have references : node.references = _ := congrArg Options.references made
  refine ⟨p, present, references ▸ made, ?_⟩
  rw [references]
  exact map_some_references closed (mem_of_project? present).1 _

private theorem map_project {nodes : List Options} {ids : List ProjectId}
    (same : nodes.map some = ids.map (s.optionsWhile visiting)) : nodes.map (·.project) = ids := by
  induction nodes generalizing ids with
  | nil => exact (List.map_eq_nil_iff.mp same.symm).symm
  | cons node rest ih =>
    obtain ⟨id, others, rfl, here, later⟩ := List.map_eq_cons_iff.mp same.symm
    rw [List.map_cons, project_of_optionsBelow here, ih later.symm]

private theorem projects_under (valid : WellFormed s) (closed : s.Closed) {top node : Options} {chain : List ProjectId}
    (found : s.optionsWhile visiting id = some top) (reached : top.ReachedBy chain node) {q : Project}
    (member : q ∈ s.projects) (named : node.project = q.id) :
    node.references.map (·.project) = q.configuration.references.filter (· ∉ chain ++ visiting) := by
  obtain ⟨p, present, -, references⟩ := references_of_reachedBy closed found reached
  rw [named, valid.project?_of_mem member] at present
  obtain rfl := Option.some.inj present
  exact map_project references

end Solution

/-- Building options ends, whatever the references and whichever projects are being visited: it gives options exactly
if the project exists and is not being visited, and leaves the set of visited projects as it was. Under a node that a
chain leads to, there are, in their order and as often as they are listed, the options of the references of its project
that are not on the chain. So a project has the options of all its references but itself, and under each of these, those
of all its references that are neither of the two. -/
theorem options_cut_at_cycles {s : Solution} (run : Reachable s) :
    (∀ visiting id found after, s.Visits visiting.toFinset id found after ↔
      found = s.optionsWhile visiting id ∧ after = visiting.toFinset) ∧
    (∀ visiting id, (s.optionsWhile visiting id).isSome ↔ (s.project? id).isSome ∧ id ∉ visiting) ∧
    (∀ visiting id top, s.optionsWhile visiting id = some top → ∀ chain node, top.ReachedBy chain node →
      chain.Nodup ∧ ∃ p, s.project? node.project = some p ∧ node = p.options node.references ∧
        node.references.map some = (p.configuration.references.filter (· ∉ chain ++ visiting)).map
          (s.optionsWhile (chain ++ visiting))) ∧
    ∀ p ∈ s.projects, ∃ top, s.options? p.id = some top ∧
      top.references.map (·.project) = p.configuration.references.filter (· ≠ p.id) ∧
      ∀ q ∈ s.projects, ∀ node ∈ top.references, node.project = q.id →
        node.references.map (·.project) = q.configuration.references.filter fun id => id ≠ q.id ∧ id ≠ p.id := by
  have valid := run.wellFormed
  refine ⟨fun _ _ _ _ => Solution.visits_iff, fun _ _ => Solution.isSome_optionsWhile, ?_, ?_⟩
  · intro visiting id top found chain node reached
    obtain ⟨-, -, distinct, -⟩ := Solution.optionsWhile_of_reachedBy found reached
    exact ⟨distinct, Solution.references_of_reachedBy run.closed found reached⟩
  · intro p member
    have present := valid.project?_of_mem member
    obtain ⟨top, found⟩ := Solution.exists_options present
    have named : top.project = p.id := Solution.project_of_optionsBelow found
    refine ⟨top, found, ?_, ?_⟩
    · have below := Solution.projects_under valid run.closed found .top member named
      simpa [named] using below
    · intro q known node listed same
      have below := Solution.projects_under valid run.closed found (.under .top listed) known same
      simpa [named, same] using below

namespace Sample

/-- The base is under both sides of the top, although it refers back to it. Under the base nothing is left. -/
theorem diamond_options : ∃ top, diamond.options? "Top" = some top ∧
    top.references.map (·.project) = ["Left", "Right"] ∧
    (∀ side ∈ top.references, side.references.map (·.project) = ["Base"] ∧
      ∀ base ∈ side.references, base.references = []) ∧
    (∃ left, diamond.Visits {"Top"} "Left" (some left) {"Top"}) ∧ diamond.Visits {"Top"} "Top" none {"Top"} := by
  obtain ⟨visits, present, under, all⟩ := options_cut_at_cycles diamond_reachable
  have top : referring "Top" ["Left", "Right"] ∈ diamond.projects := by decide
  have sides : ∀ id ∈ ["Left", "Right"], referring id ["Base"] ∈ diamond.projects := by decide
  obtain ⟨tree, found, direct, second⟩ := all _ top
  have direct : tree.references.map (·.project) = ["Left", "Right"] := direct
  refine ⟨tree, found, direct, ?_, ?_, ?_⟩
  · intro side listed
    have named : side.project ∈ ["Left", "Right"] := direct ▸ List.mem_map_of_mem listed
    have other : side.project ≠ "Base" := by
      intro same
      rw [same] at named
      exact absurd named (by decide)
    have below : side.references.map (·.project) = ["Base"].filter fun id => id ≠ side.project ∧ id ≠ "Top" :=
      second _ (sides _ named) side listed rfl
    have below : side.references.map (·.project) = ["Base"] := by simpa [other.symm] using below
    refine ⟨below, fun base inside => ?_⟩
    have last : base.project ∈ ["Base"] := below ▸ List.mem_map_of_mem inside
    obtain ⟨-, p, known, -, nothing⟩ := under [] "Top" tree found _ base (.under (.under .top listed) inside)
    rw [List.mem_singleton.mp last, Solution.project_of_optionsBelow found] at nothing
    rw [List.mem_singleton.mp last] at known
    cases known
    have cut : ["Base", "Top"].filter (· ∉ ["Base", side.project, "Top"]) = [] := by simp
    have nothing : base.references.map some = (["Base", "Top"].filter (· ∉ ["Base", side.project, "Top"])).map _ :=
      nothing
    rw [cut] at nothing
    exact List.map_eq_nil_iff.mp nothing
  · obtain ⟨left, made⟩ := Option.isSome_iff_exists.mp ((present ["Top"] "Left").mpr (by decide))
    exact ⟨left, (visits ["Top"] "Left" _ _).mpr ⟨made.symm, rfl⟩⟩
  · have cut : diamond.optionsWhile ["Top"] "Top" = none := by
      rw [← Option.not_isSome_iff_eq_none, present]
      decide
    exact (visits ["Top"] "Top" _ _).mpr ⟨cut.symm, rfl⟩

end Sample

end CrossRef
