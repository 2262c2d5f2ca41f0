import CrossRef.Proofs.LocatedUses
import Mathlib.Data.List.Perm.Basic
import Mathlib.Data.List.Sort
import Mathlib.Logic.Relation

/-! Searching projects at the same time. A pool starts the searches in the order of the projects, as many at once as
its limit allows, and they complete in any order; the first failure ends it. Whatever the order, the search succeeds
in the same cases and with the same uses, those of the search one after another. -/

namespace CrossRef

/-- Either all results are uses, or the whole fails like one of them. -/
theorem gather_cases (completed : List (Nat × Except Error (List Use))) :
    (∃ found : List (Nat × List Use), completed = found.map (fun part => (part.1, .ok part.2)) ∧
        gather completed = .ok ((found.mergeSort fun a b => a.1 ≤ b.1).flatMap (·.2))) ∨
      ∃ e number, (number, .error e) ∈ completed ∧ gather completed = .error e := by
  have read : (∃ found : List (Nat × List Use), completed = found.map (fun part => (part.1, .ok part.2)) ∧
        completed.mapM (fun part => part.2.map fun uses => (part.1, uses)) = .ok found) ∨
      ∃ e number, (number, .error e) ∈ completed ∧
        completed.mapM (fun part => part.2.map fun uses => (part.1, uses)) = .error e := by
    induction completed with
    | nil => exact .inl ⟨[], rfl, rfl⟩
    | cons first rest ih =>
      obtain ⟨number, result⟩ := first
      rw [List.mapM_cons]
      cases result with
      | error e => exact .inr ⟨e, number, List.mem_cons_self, rfl⟩
      | ok uses =>
        rcases ih with ⟨found, same, later⟩ | ⟨e, position, member, later⟩
        · exact .inl ⟨(number, uses) :: found, by rw [same]; rfl, by rw [later]; rfl⟩
        · exact .inr ⟨e, position, List.mem_cons_of_mem _ member, by rw [later]; rfl⟩
  have opened : gather completed = (completed.mapM fun part => part.2.map fun uses => (part.1, uses)) >>=
      fun found => .ok <| (found.mergeSort fun a b => a.1 ≤ b.1).flatMap (·.2) := rfl
  rcases read with ⟨found, same, outcome⟩ | ⟨e, number, member, outcome⟩
  · exact .inl ⟨found, same, by rw [opened, outcome]; rfl⟩
  · exact .inr ⟨e, number, member, by rw [opened, outcome]; rfl⟩

private theorem exists_found {completed : List (Nat × Except Error (List Use))}
    (healthy : ∀ result ∈ completed, ∃ uses, result.2 = .ok uses) :
    ∃ found : List (Nat × List Use), completed = found.map (fun part => (part.1, .ok part.2)) ∧
      gather completed = .ok ((found.mergeSort fun a b => a.1 ≤ b.1).flatMap (·.2)) := by
  rcases gather_cases completed with success | ⟨e, number, member, -⟩
  · exact success
  · obtain ⟨uses, absurd⟩ := healthy _ member
    cases absurd

private theorem healthy_of_gather {completed : List (Nat × Except Error (List Use))} {uses : List Use}
    (success : gather completed = .ok uses) : ∀ result ∈ completed, ∃ uses, result.2 = .ok uses := by
  rcases gather_cases completed with ⟨found, rfl, -⟩ | ⟨e, number, -, failure⟩
  · exact List.forall_mem_map.mpr fun part _ => ⟨part.2, rfl⟩
  · cases success.symm.trans failure

theorem mem_of_gather_eq_error {completed : List (Nat × Except Error (List Use))} {e : Error}
    (failure : gather completed = .error e) : ∃ number, (number, .error e) ∈ completed := by
  rcases gather_cases completed with ⟨found, -, success⟩ | ⟨other, number, member, outcome⟩
  · cases failure.symm.trans success
  · cases failure.symm.trans outcome
    exact ⟨number, member⟩

private theorem mergeSort_of_perm {found parts : List (Nat × List Use)} (numbered : (found.map (·.1)).Nodup)
    (reordered : parts.Perm found) : (parts.mergeSort fun a b => a.1 ≤ b.1) = found.mergeSort fun a b => a.1 ≤ b.1 := by
  have sorted : ∀ items : List (Nat × List Use),
      (items.mergeSort fun a b => a.1 ≤ b.1).Pairwise fun a b => decide (a.1 ≤ b.1) = true := by
    apply List.pairwise_mergeSort
    · intro a b c first second
      simp only [decide_eq_true_eq] at first second ⊢
      omega
    · intro a b
      simp only [Bool.or_eq_true, decide_eq_true_eq]
      omega
  apply List.Perm.eq_of_pairwise _ (sorted parts) (sorted found)
  · exact (List.mergeSort_perm ..).trans (reordered.trans (List.mergeSort_perm ..).symm)
  · -- the numbers differ, so the order is one of the numbers alone
    intro a b left right before behind
    simp only [decide_eq_true_eq] at before behind
    have left := reordered.subset (List.mem_mergeSort.mp left)
    exact List.inj_on_of_nodup_map numbered left (List.mem_mergeSort.mp right) (by omega)

/-- Numbered results lead to the same uses in whatever order they were completed. -/
theorem gather_of_perm {completed others : List (Nat × Except Error (List Use))}
    (healthy : ∀ result ∈ completed, ∃ uses, result.2 = .ok uses) (numbered : (completed.map (·.1)).Nodup)
    (reordered : others.Perm completed) : gather others = gather completed := by
  obtain ⟨found, rfl, success⟩ := exists_found healthy
  obtain ⟨parts, rfl, success'⟩ := exists_found fun result member => healthy result (reordered.subset member)
  have rearranged : parts.Perm found := by
    apply (List.map_perm_map_iff _).mp reordered
    intro a b same
    obtain ⟨numbers, results⟩ := Prod.mk.inj same
    exact Prod.ext numbers (Except.ok.inj results)
  rw [List.map_map] at numbered
  rw [success, success', mergeSort_of_perm numbered rearranged]

/-- A search through projects: those that wait for their turn, those that are searched, and the results so far in
the order of their completion. -/
structure Pool where
  waiting : List (ProjectId × Nat)
  running : List (ProjectId × Nat)
  completed : List (Nat × Except Error (List Use))

def Service.completion (service : Service Id) (symbol : Symbol) (s : Solution) (job : ProjectId × Nat) :
    Nat × Except Error (List Use) :=
  (job.2, service.usesInProject symbol s job.1)

namespace Pool

def opened (projects : List ProjectId) : Pool :=
  ⟨projects.zipIdx, [], []⟩

def Healthy (pool : Pool) : Prop :=
  ∀ result ∈ pool.completed, ∃ uses, result.2 = .ok uses

def remaining (pool : Pool) : Nat :=
  2 * pool.waiting.length + pool.running.length

variable (service : Service Id) (symbol : Symbol) (s : Solution) (limit : Nat)

/-- Either the next project starts, if there is room, or any of those under way completes. -/
inductive Step (pool : Pool) : Pool → Prop
  | start {job : ProjectId × Nat} {rest : List (ProjectId × Nat)} (healthy : pool.Healthy)
      (room : pool.running.length < max 1 limit) (next : pool.waiting = job :: rest) :
      Step pool ⟨rest, job :: pool.running, pool.completed⟩
  | finish {job : ProjectId × Nat} {before behind : List (ProjectId × Nat)} (healthy : pool.Healthy)
      (busy : pool.running = before ++ job :: behind) :
      Step pool ⟨pool.waiting, before ++ behind, pool.completed ++ [service.completion symbol s job]⟩

def Run : Pool → Pool → Prop :=
  Relation.ReflTransGen (Step service symbol s limit)

def Settled (pool : Pool) : Prop :=
  ∀ next, ¬Step service symbol s limit pool next

def Accounts (projects : List ProjectId) (pool : Pool) : Prop :=
  ∃ finished, pool.completed = finished.map (service.completion symbol s) ∧
    (pool.waiting ++ (pool.running ++ finished)).Perm projects.zipIdx

variable {service symbol s limit} {pool next : Pool} {projects : List ProjectId}

private theorem Step.remaining_lt (step : Step service symbol s limit pool next) : next.remaining < pool.remaining := by
  cases step with
  | start healthy room first =>
    simp only [remaining, first, List.length_cons]
    omega
  | finish healthy busy =>
    simp only [remaining, busy, List.length_append, List.length_cons]
    omega

private theorem Step.accounts (step : Step service symbol s limit pool next)
    (valid : pool.Accounts service symbol s projects) : next.Accounts service symbol s projects := by
  obtain ⟨finished, results, all⟩ := valid
  cases step with
  | start healthy room first =>
    rw [first] at all
    exact ⟨finished, results, List.perm_middle.trans all⟩
  | @finish job before behind healthy busy =>
    refine ⟨finished ++ [job], by rw [results, List.map_append]; rfl, List.Perm.trans ?_ all⟩
    apply List.Perm.append_left
    rw [busy, List.append_assoc, List.append_assoc]
    apply List.Perm.append_left
    rw [← List.append_assoc, List.cons_append]
    exact List.perm_append_comm

private theorem Run.accounts (run : Run service symbol s limit (opened projects) pool) :
    pool.Accounts service symbol s projects := by
  induction run with
  | refl => exact ⟨[], rfl, by simp [opened]⟩
  | tail _ step ih => exact step.accounts ih

theorem settled_iff :
    pool.Settled service symbol s limit ↔ (pool.Healthy → pool.waiting = [] ∧ pool.running = []) := by
  constructor
  · intro settled healthy
    have idle : pool.running = [] := by
      cases busy : pool.running with
      | nil => rfl
      | cons job rest => exact (settled _ (.finish healthy (busy.trans (List.nil_append _).symm))).elim
    have started : pool.waiting = [] := by
      cases waiting : pool.waiting with
      | nil => rfl
      | cons job rest => exact (settled _ (.start healthy (by simp [idle]) waiting)).elim
    exact ⟨started, idle⟩
  · intro finished next step
    cases step with
    | start healthy room first =>
      rw [(finished healthy).1] at first
      cases first
    | finish healthy busy =>
      rw [(finished healthy).2] at busy
      simp at busy

/-- A pool that has come to rest without a failure has searched all projects. -/
private theorem Run.finished (run : Run service symbol s limit (opened projects) pool)
    (settled : pool.Settled service symbol s limit) (healthy : pool.Healthy) :
    ∃ finished : List (ProjectId × Nat), pool.completed = finished.map (service.completion symbol s) ∧
      finished.Perm projects.zipIdx := by
  obtain ⟨finished, results, all⟩ := run.accounts
  obtain ⟨waiting, running⟩ := settled_iff.mp settled healthy
  rw [waiting, running, List.nil_append, List.nil_append] at all
  exact ⟨finished, results, all⟩

variable (service symbol s limit) in
/-- Searching one project after another is one of the ways in which the pool can go. -/
theorem run_searchEach (items : List (ProjectId × Nat)) {completed : List (Nat × Except Error (List Use))}
    (healthy : ∀ result ∈ completed, ∃ uses, result.2 = .ok uses) :
    ∃ last, Run service symbol s limit ⟨items, [], completed⟩ last ∧ last.Settled service symbol s limit ∧
      last.completed = completed ++ Id.run (service.searchEach symbol s items) := by
  induction items generalizing completed with
  | nil => exact ⟨_, .refl, settled_iff.mpr fun _ => ⟨rfl, rfl⟩, (List.append_nil _).symm⟩
  | cons job rest ih =>
    have started : Step service symbol s limit ⟨job :: rest, [], completed⟩ ⟨rest, [job], completed⟩ :=
      .start healthy (by simp) rfl
    have finished : Step service symbol s limit ⟨rest, [job], completed⟩
        ⟨rest, [], completed ++ [service.completion symbol s job]⟩ :=
      @Step.finish service symbol s limit ⟨rest, [job], completed⟩ job [] [] healthy rfl
    cases outcome : service.usesInProject symbol s job.1 with
    | error e =>
      refine ⟨_, .tail (.single started) finished, settled_iff.mpr ?_, ?_⟩
      · intro good
        obtain ⟨uses, absurd⟩ := good _ (List.mem_append_right _ (List.mem_singleton_self _))
        cases outcome.symm.trans absurd
      · simp only [Service.searchEach, Service.completion, outcome]
        rfl
    | ok uses =>
      have healthy' : ∀ result ∈ completed ++ [service.completion symbol s job], ∃ uses, result.2 = .ok uses := by
        intro result member
        rcases List.mem_append.mp member with earlier | here
        · exact healthy result earlier
        · rw [List.mem_singleton.mp here]
          exact ⟨uses, outcome⟩
      obtain ⟨last, run, settled, results⟩ := ih healthy'
      refine ⟨last, .head started (.head finished run), settled, ?_⟩
      rw [results, List.append_assoc]
      simp only [Service.searchEach, Service.completion, outcome]
      rfl

end Pool

namespace Service

variable (service : Service Id) (symbol : Symbol) (s : Solution) (limit : Nat)

/-- The uses that the check of a project reports when it is asked for a symbol; none without options. -/
def reported (project : ProjectId) : List Use :=
  match service.options? s project with
  | none => []
  | some options =>
    match service.checker.project options with
    | .ok check => check.usesOf symbol
    | .error _ => []

def Checks (projects : List ProjectId) : Prop :=
  ∀ project ∈ projects, ∀ options, service.options? s project = some options →
    ∃ check, service.checker.project options = .ok check

/-- What a search of some projects may answer, depending on how the pool goes. -/
def Answers (projects : List ProjectId) (answer : Except Error (List Use)) : Prop :=
  ∃ pool, Pool.Run service symbol s limit (.opened projects) pool ∧ pool.Settled service symbol s limit ∧
    answer = gather pool.completed

/-- What a search of all places where a symbol is visible may answer. -/
def AnswersAcross (visibility : Visibility) (inFile : Symbol → List Use) (answer : Except Error (List DocumentUses)) :
    Prop :=
  match visibility with
  | .currentDocument => answer = .ok (groupByDocument (distinctPlaces (inFile symbol)) s)
  | .projects .. => ∃ found, service.Answers symbol s limit (visibility.searchedProjects s) found ∧
      answer = found.map fun uses => groupByDocument (distinctPlaces uses) s

variable {service symbol s limit} {projects : List ProjectId}

private theorem usesInProject_of_checks {project : ProjectId}
    (checks : ∀ options, service.options? s project = some options →
      ∃ check, service.checker.project options = .ok check) :
    service.usesInProject symbol s project = .ok (service.reported symbol s project) := by
  simp only [usesInProject, reported]
  cases present : service.options? s project with
  | none => rfl
  | some options =>
    obtain ⟨check, outcome⟩ := checks options present
    simp only [outcome]
    rfl

private theorem usesInProject_of_fault {project : ProjectId} {options : Options} {fault : CheckError}
    (present : service.options? s project = some options) (failed : service.checker.project options = .error fault) :
    service.usesInProject symbol s project = .error (.check fault) := by
  simp only [usesInProject, present, failed]
  rfl

private theorem usesInProject_of_error {project : ProjectId} {e : Error}
    (failure : service.usesInProject symbol s project = .error e) :
    ∃ options fault, service.options? s project = some options ∧
      service.checker.project options = .error fault ∧ e = .check fault := by
  simp only [usesInProject] at failure
  cases present : service.options? s project with
  | none =>
    rw [present] at failure
    cases failure
  | some options =>
    rw [present] at failure
    cases outcome : service.checker.project options with
    | ok check =>
      simp only [outcome] at failure
      cases failure
    | error fault =>
      simp only [outcome] at failure
      cases failure
      exact ⟨options, fault, rfl, outcome, rfl⟩

private theorem completion_of_mem {job : ProjectId × Nat} (listed : job ∈ projects.zipIdx)
    (checks : service.Checks s projects) :
    service.completion symbol s job = (job.2, .ok (service.reported symbol s job.1)) := by
  rw [completion, usesInProject_of_checks (checks job.1 (List.fst_mem_of_mem_zipIdx listed))]

variable (service symbol s limit projects) in
private theorem answers_usesInProjects :
    service.Answers symbol s limit projects (service.usesInProjects symbol projects s false).run := by
  obtain ⟨last, run, settled, results⟩ :=
    Pool.run_searchEach service symbol s limit projects.zipIdx fun _ absurd => (List.not_mem_nil absurd).elim
  refine ⟨last, run, settled, ?_⟩
  rw [results]
  rfl

private theorem Answers.of_checks {answer : Except Error (List Use)}
    (reached : service.Answers symbol s limit projects answer)
    (checks : service.Checks s projects) : answer = .ok (projects.flatMap (service.reported symbol s)) := by
  obtain ⟨pool, run, settled, rfl⟩ := reached
  have healthy : ∀ job ∈ projects.zipIdx, ∃ uses, (service.completion symbol s job).2 = .ok uses :=
    fun job listed => ⟨_, congrArg Prod.snd (completion_of_mem listed checks)⟩
  have undisturbed : pool.Healthy := by
    obtain ⟨finished, results, all⟩ := run.accounts
    intro result member
    rw [results] at member
    obtain ⟨job, listed, rfl⟩ := List.mem_map.mp member
    exact healthy job (all.subset (List.mem_append_right _ (List.mem_append_right _ listed)))
  obtain ⟨finished, results, all⟩ := run.finished settled undisturbed
  have numbered : ((projects.zipIdx.map (service.completion symbol s)).map (·.1)).Nodup := by
    rw [List.map_map]
    exact (List.zipIdx_map_snd 0 projects) ▸ List.nodup_range'
  calc gather pool.completed
      = gather (projects.zipIdx.map (service.completion symbol s)) := by
        rw [results]
        exact gather_of_perm (List.forall_mem_map.mpr healthy) numbered (all.map _)
    _ = gather (projects.zipIdx.map fun job => (job.2, .ok (service.reported symbol s job.1))) := by
        rw [List.map_congr_left fun job listed => completion_of_mem listed checks]
    _ = .ok (projects.flatMap (service.reported symbol s)) := gather_eq_ok ..

theorem Answers.fault {answer : Except Error (List Use)} {e : Error}
    (reached : service.Answers symbol s limit projects answer) (failure : answer = .error e) :
    ∃ project ∈ projects, ∃ options fault, service.options? s project = some options ∧
      service.checker.project options = .error fault ∧ e = .check fault := by
  obtain ⟨pool, run, settled, rfl⟩ := reached
  obtain ⟨finished, results, all⟩ := run.accounts
  obtain ⟨number, member⟩ := mem_of_gather_eq_error failure
  rw [results] at member
  obtain ⟨job, listed, same⟩ := List.mem_map.mp member
  have listed := all.subset (List.mem_append_right _ (List.mem_append_right _ listed))
  exact ⟨job.1, List.fst_mem_of_mem_zipIdx listed, usesInProject_of_error (congrArg Prod.snd same)⟩

theorem Answers.succeeds_iff {answer : Except Error (List Use)}
    (reached : service.Answers symbol s limit projects answer) :
    (∃ uses, answer = .ok uses) ↔ service.Checks s projects := by
  constructor
  · intro ⟨uses, success⟩
    obtain ⟨pool, run, settled, rfl⟩ := reached
    have healthy := healthy_of_gather success
    obtain ⟨finished, results, all⟩ := run.finished settled healthy
    intro project listed options present
    cases outcome : service.checker.project options with
    | ok check => exact ⟨check, rfl⟩
    | error fault =>
      rw [← List.zipIdx_map_fst 0 projects] at listed
      obtain ⟨job, numbered, rfl⟩ := List.mem_map.mp listed
      obtain ⟨found, absurd⟩ := healthy (service.completion symbol s job)
        (results ▸ List.mem_map_of_mem (all.symm.subset numbered))
      cases (usesInProject_of_fault present outcome).symm.trans absurd
  · intro checks
    exact ⟨_, reached.of_checks checks⟩

theorem Answers.eq_ok_iff {answer other : Except Error (List Use)}
    (reached : service.Answers symbol s limit projects answer)
    (reached' : service.Answers symbol s limit projects other) (uses : List Use) :
    answer = .ok uses ↔ other = .ok uses := by
  by_cases checks : service.Checks s projects
  · rw [reached.of_checks checks, reached'.of_checks checks]
  · have fails {result : Except Error (List Use)} (reached : service.Answers symbol s limit projects result) :
        result ≠ .ok uses := fun success => checks (reached.succeeds_iff.mp ⟨uses, success⟩)
    exact iff_of_false (fails reached) (fails reached')

private theorem map_eq_ok_iff {α β : Type} {outcome : Except Error α} {next : α → β} {result : β} :
    outcome.map next = .ok result ↔ ∃ value, outcome = .ok value ∧ next value = result := by
  cases outcome <;> simp [Except.map]

theorem AnswersAcross.eq_ok_iff {visibility : Visibility} {inFile : Symbol → List Use}
    {answer : Except Error (List DocumentUses)}
    (reached : service.AnswersAcross symbol s limit visibility inFile answer) (groups : List DocumentUses) :
    answer = .ok groups ↔ (service.usesAcross symbol visibility inFile s false).run = .ok groups := by
  cases visibility with
  | currentDocument =>
    rw [show answer = _ from reached]
    rfl
  | projects ids isInternal =>
    obtain ⟨found, reached, rfl⟩ := reached
    have searched := service.answers_usesInProjects symbol s limit
      ((Visibility.projects ids isInternal).searchedProjects s)
    have grouped : (service.usesAcross symbol (.projects ids isInternal) inFile s false).run =
        (service.usesInProjects symbol ((Visibility.projects ids isInternal).searchedProjects s) s false).run.map
          fun uses => groupByDocument (distinctPlaces uses) s := by
      simp only [usesAcross]
      rw [if_neg Bool.false_ne_true, ExceptT.run_bind]
      cases (service.usesInProjects symbol ((Visibility.projects ids isInternal).searchedProjects s) s false).run <;>
        rfl
    rw [grouped, map_eq_ok_iff, map_eq_ok_iff]
    simp only [reached.eq_ok_iff searched]

end Service

/-- A search through the pool comes to an end, and searching one project after another is one of its ways. In
whatever order the projects complete, it succeeds if all of them check, with their uses in the order of the projects,
and else fails like one of them; so what is found by document does not depend on the order either. -/
theorem search_in_any_order (service : Service Id) (symbol : Symbol) (s : Solution) (limit : Nat) :
    WellFounded (fun next pool => Pool.Step service symbol s limit pool next) ∧
    (∀ projects, service.Answers symbol s limit projects (service.usesInProjects symbol projects s false).run) ∧
    (∀ projects answer, service.Answers symbol s limit projects answer →
      ((∃ uses, answer = .ok uses) ↔ service.Checks s projects) ∧
      (∀ uses, answer = .ok uses → uses = projects.flatMap (service.reported symbol s)) ∧
      ∀ e, answer = .error e → ∃ project ∈ projects, ∃ options fault,
        service.options? s project = some options ∧ service.checker.project options = .error fault ∧
          e = .check fault) ∧
    ∀ visibility inFile answer, service.AnswersAcross symbol s limit visibility inFile answer →
      ∀ groups, answer = .ok groups ↔
        (service.usesAcross symbol visibility inFile s false).run = .ok groups := by
  refine ⟨?_, fun projects => service.answers_usesInProjects symbol s limit projects, ?_, ?_⟩
  · apply Subrelation.wf _ (measure Pool.remaining).wf
    intro next pool step
    exact step.remaining_lt
  · intro projects answer reached
    refine ⟨reached.succeeds_iff, ?_, fun e failure => reached.fault failure⟩
    intro uses success
    have checks := reached.succeeds_iff.mp ⟨uses, success⟩
    exact Except.ok.inj (success.symm.trans (reached.of_checks checks))
  · intro visibility inFile answer reached groups
    exact reached.eq_ok_iff groups

namespace Sample

private def sought : Symbol := ⟨⟨"a"⟩, "a", .value, .everywhere, false, none⟩

private def useIn (path : Path) : Use := ⟨sought, ⟨path, .onLine 0 4 5⟩, .definition⟩

/-- A checker that goes by names: it finds one use in each file, whatever identity the symbol has. -/
private def finding : Service Id where
  checker :=
    { file := fun _ _ _ _ => .ok ⟨[], none⟩
      project := fun options => .ok ⟨fun symbol =>
        if symbol.name = sought.name then options.files.map fun file => useIn file.path else []⟩ }
  options? := Solution.options?
  lookup := .precise

private def backwards : List (Nat × Except Error (List Use)) :=
  [(1, .ok []), (2, .ok [useIn client.path]), (0, .ok [useIn library.path])]

/-- The first project completes last, and the second one is unknown. -/
private theorem answers_backwards : finding.Answers sought solution 2 ["Lib", "Gone", "App"] (gather backwards) := by
  have healthy (count : Nat) {pool : Pool} (results : pool.completed = backwards.take count) : pool.Healthy := by
    intro result member
    have member := List.mem_of_mem_take (results ▸ member)
    simp only [backwards, List.mem_cons, List.not_mem_nil, or_false] at member
    rcases member with rfl | rfl | rfl <;> exact ⟨_, rfl⟩
  refine ⟨⟨[], [], backwards⟩, ?_, Pool.settled_iff.mpr fun _ => ⟨rfl, rfl⟩, rfl⟩
  refine .head (.start (healthy 0 rfl) (by decide) rfl) ?_
  refine .head (.start (healthy 0 rfl) (by decide) rfl) ?_
  refine .head (@Pool.Step.finish _ _ _ _ _ ("Gone", 1) [] [("Lib", 0)] (healthy 0 rfl) rfl) ?_
  refine .head (.start (healthy 1 rfl) (by decide) rfl) ?_
  refine .head (@Pool.Step.finish _ _ _ _ _ ("App", 2) [] [("Lib", 0)] (healthy 1 rfl) rfl) ?_
  exact .single (@Pool.Step.finish _ _ _ _ _ ("Lib", 0) [] [] (healthy 2 rfl) rfl)

theorem search_completed_backwards :
    finding.Answers sought solution 2 ["Lib", "Gone", "App"] (gather backwards) ∧
      finding.Checks solution ["Lib", "Gone", "App"] ∧
      gather backwards = .ok [useIn library.path, useIn client.path] := by
  obtain ⟨-, -, answered, -⟩ := search_in_any_order finding sought solution 2
  obtain ⟨succeeds, found, -⟩ := answered _ _ answers_backwards
  have checks : finding.Checks solution ["Lib", "Gone", "App"] := fun _ _ options _ => ⟨_, rfl⟩
  obtain ⟨uses, success⟩ := succeeds.mpr checks
  refine ⟨answers_backwards, checks, ?_⟩
  rw [success, found uses success]
  rfl

end Sample

end CrossRef
