import CrossRef.Proofs.RecentAnswers
import Mathlib.Data.List.MinMax

/-! Tables in no order whose entries carry the time of their last use, and which drop the entry with the least time.
While time passes between requests no two of these times are the same. The entries are then those of the tables that
are kept in the order of last use, and so the same answers are remembered. -/

namespace CrossRef

/-- A remembered answer with the time of its last use. -/
structure TimedEntry (κ ι α : Type) extends CacheEntry κ ι α where
  used : Nat

/-- Remembered answers in no order, with at most one for each key. -/
abbrev TimedTable (κ ι α : Type) := List (TimedEntry κ ι α)

namespace TimedTable

section order

variable {κ ι α : Type} {timed order : TimedTable κ ι α} {table : CacheTable κ ι α} {now : Nat}

def entries (timed : TimedTable κ ι α) : CacheTable κ ι α :=
  timed.map (·.toCacheEntry)

/-- The same entries as in a table, whose order is that of the times. -/
def Tracks (timed : TimedTable κ ι α) (table : CacheTable κ ι α) : Prop :=
  ∃ order : TimedTable κ ι α, timed.Perm order ∧ order.Pairwise (fun a b => b.used < a.used) ∧ order.entries = table

private theorem entries_filter (p : CacheEntry κ ι α → Bool) (timed : TimedTable κ ι α) :
    entries (timed.filter fun entry => p entry.toCacheEntry) = timed.entries.filter p := by
  rw [entries, entries, List.filter_map]
  rfl

theorem Tracks.perm (tracks : timed.Tracks table) : timed.entries.Perm table := by
  obtain ⟨order, same, -, rfl⟩ := tracks
  exact same.map _

private theorem Tracks.of_perm {other : TimedTable κ ι α} (same : other.Perm timed) (tracks : timed.Tracks table) :
    other.Tracks table := by
  obtain ⟨order, also, sorted, equal⟩ := tracks
  exact ⟨order, same.trans also, sorted, equal⟩

theorem tracks_cons (same : timed.Perm order) (sorted : order.Pairwise fun a b => b.used < a.used)
    (late : ∀ e ∈ order, e.used < now) (entry : CacheEntry κ ι α) :
    Tracks (⟨entry, now⟩ :: timed) (entry :: order.entries) :=
  ⟨⟨entry, now⟩ :: order, same.cons _, List.pairwise_cons.mpr ⟨late, sorted⟩, rfl⟩

private theorem nodup_of_entries (distinct : order.entries.keys.Nodup) : (order.map (·.key)).Nodup := by
  rwa [CacheTable.keys, entries, List.map_map] at distinct

end order

variable {κ ι α : Type} [DecidableEq κ] {timed order : TimedTable κ ι α} {table : CacheTable κ ι α} {now : Nat}

def use (timed : TimedTable κ ι α) (key : κ) (now : Nat) : TimedTable κ ι α :=
  timed.map fun entry => if entry.key = key then { entry with used := now } else entry

/-- Drops the entry whose last use has the least time. -/
def evict (timed : TimedTable κ ι α) : TimedTable κ ι α :=
  match timed.argmin (·.used) with
  | some oldest => timed.filter (·.key ≠ oldest.key)
  | none => timed

/-- Puts an entry in, in place of the one with its key. A full table makes room for a new key first. -/
def put (timed : TimedTable κ ι α) (capacity now : Nat) (entry : CacheEntry κ ι α) : TimedTable κ ι α :=
  let kept := if capacity ≤ timed.length ∧ ¬timed.entries.hasKey entry.key then timed.evict else timed
  ⟨entry, now⟩ :: kept.filter (·.key ≠ entry.key)

private theorem filter_of_absent {key : κ} (absent : ∀ e ∈ timed, e.key ≠ key) : timed.filter (·.key ≠ key) = timed :=
  List.filter_eq_self.mpr fun e member => decide_eq_true (absent e member)

private theorem Tracks.find?_eq [DecidableEq ι] (tracks : timed.Tracks table) (distinct : table.keys.Nodup) (key : κ)
    (input : ι)
    (now lifetime : Nat) : timed.entries.find? key input now lifetime = table.find? key input now lifetime := by
  have first : List.find? (·.key = key) timed.entries = List.find? (·.key = key) table := by
    rw [← List.head?_filter, ← List.head?_filter]
    have same := tracks.perm.filter fun entry => decide (entry.key = key)
    by_cases inside : key ∈ table.keys
    · obtain ⟨entry, member, rfl⟩ := List.mem_map.mp inside
      rw [filter_eq_singleton distinct member] at same ⊢
      rw [List.perm_singleton.mp same]
    · have nothing : table.filter (·.key = key) = [] := by
        refine List.filter_eq_nil_iff.mpr fun entry member keyed => inside ?_
        exact of_decide_eq_true keyed ▸ List.mem_map_of_mem member
      rw [nothing] at same ⊢
      rw [List.perm_nil.mp same]
  rw [CacheTable.find?, CacheTable.find?, first]

theorem Tracks.use (tracks : timed.Tracks table) (distinct : table.keys.Nodup) (late : ∀ e ∈ timed, e.used < now)
    {key : κ} (inside : key ∈ table.keys) : (timed.use key now).Tracks (table.touch key) := by
  obtain ⟨order, same, sorted, rfl⟩ := tracks
  obtain ⟨_, member, rfl⟩ := List.mem_map.mp inside
  obtain ⟨e, listed, rfl⟩ := List.mem_map.mp member
  have parts : order.Perm (e :: order.filter (·.key ≠ e.key)) := by
    have split := (List.filter_append_perm (fun x : TimedEntry κ ι α => decide (x.key = e.key)) order).symm
    rw [filter_eq_singleton (nodup_of_entries distinct) listed, List.singleton_append] at split
    simpa only [decide_not] using split
  have others : ∀ x ∈ order.filter (·.key ≠ e.key), (if x.key = e.key then { x with used := now } else x) = x :=
    fun x kept => if_neg (of_decide_eq_true (List.mem_filter.mp kept).2)
  have moved : (timed.use e.key now).Perm (⟨e.toCacheEntry, now⟩ :: order.filter (·.key ≠ e.key)) := by
    refine ((same.trans parts).map _).trans ?_
    rw [List.map_cons, List.map_congr_left others, List.map_id', if_pos rfl]
  have rest := tracks_cons (List.Perm.refl (order.filter (·.key ≠ e.key))) (sorted.filter _)
    (fun x kept => late x (same.symm.subset (List.mem_of_mem_filter kept))) e.toCacheEntry
  rw [entries_filter fun entry => decide (entry.key ≠ e.key)] at rest
  rw [CacheTable.touch, filter_eq_singleton distinct member]
  exact rest.of_perm moved

/-- The least time is that of the last entry in the order of the times. -/
theorem evict_perm (same : timed.Perm order) (sorted : order.Pairwise fun a b => b.used < a.used)
    (distinct : order.entries.keys.Nodup) : timed.evict.Perm order.dropLast := by
  rcases List.eq_nil_or_concat' order with rfl | ⟨front, last, rfl⟩
  · rw [List.perm_nil.mp same]
    exact .refl _
  · obtain ⟨-, -, late⟩ := List.pairwise_append.mp sorted
    have listed : last ∈ timed := same.symm.subset (by simp)
    have alone : front.filter (·.key ≠ last.key) = front := by
      have keys := nodup_of_entries distinct
      rw [List.map_append, List.nodup_append] at keys
      exact filter_of_absent fun e inside => keys.2.2 e.key (List.mem_map_of_mem inside) last.key (by simp)
    unfold evict
    split
    · next oldest least =>
      have early := List.le_of_mem_argmin listed least
      obtain rfl : oldest = last := by
        rcases List.mem_append.mp (same.subset (List.argmin_mem least)) with inside | inside
        · have := late oldest inside last (List.mem_singleton_self last)
          omega
        · exact List.mem_singleton.mp inside
      have kept := same.filter fun e => decide (e.key ≠ oldest.key)
      rw [List.filter_append, alone] at kept
      rw [List.dropLast_concat]
      simpa using kept
    · next nothing =>
      rw [List.argmin_eq_none.mp nothing] at listed
      cases listed

private theorem evict_subset (timed : TimedTable κ ι α) : timed.evict ⊆ timed := by
  unfold evict
  split
  · exact List.filter_subset_self timed
  · exact List.Subset.refl timed

/-- A new entry comes to the front, and in a full table the one with the least time makes room for it. -/
theorem Tracks.put (tracks : timed.Tracks table) (distinct : table.keys.Nodup) (late : ∀ e ∈ timed, e.used < now)
    (capacity : Nat) (entry : CacheEntry κ ι α) : (timed.put capacity now entry).Tracks (table.insert capacity entry) := by
  obtain ⟨order, same, sorted, rfl⟩ := tracks
  have later : ∀ e ∈ order, e.used < now := fun e inside => late e (same.symm.subset inside)
  have known : timed.entries.hasKey entry.key = order.entries.hasKey entry.key := by
    rw [Bool.eq_iff_iff, CacheTable.hasKey_iff, CacheTable.hasKey_iff]
    exact ((same.map _).map _).mem_iff
  have length : timed.length = List.length order.entries := by rw [same.length_eq, entries, List.length_map]
  simp only [TimedTable.put, known, length]
  by_cases old : order.entries.hasKey entry.key = true
  · have rest := tracks_cons (same.filter fun e => decide (e.key ≠ entry.key)) (sorted.filter _)
      (fun e kept => later e (List.mem_of_mem_filter kept)) entry
    rw [entries_filter fun e => decide (e.key ≠ entry.key)] at rest
    rw [if_neg fun both => both.2 old, CacheTable.insert, if_pos old]
    exact rest
  · have absent : ∀ e ∈ order, e.key ≠ entry.key := by
      intro e inside keyed
      have among : e.key ∈ order.entries.keys := List.mem_map_of_mem (List.mem_map_of_mem inside)
      exact old (CacheTable.hasKey_iff.mpr (keyed ▸ among))
    by_cases full : capacity ≤ List.length order.entries
    · have kept := (evict_perm same sorted distinct).filter fun e => decide (e.key ≠ entry.key)
      rw [filter_of_absent fun e inside => absent e (List.dropLast_subset _ inside)] at kept
      have rest := tracks_cons kept (sorted.sublist (List.dropLast_sublist _))
        (fun e inside => later e (List.dropLast_subset _ inside)) entry
      rw [entries, List.map_dropLast] at rest
      rw [if_pos ⟨full, old⟩, CacheTable.insert, if_neg old, if_pos full]
      exact rest
    · have kept := same.filter fun e => decide (e.key ≠ entry.key)
      rw [filter_of_absent absent] at kept
      rw [if_neg fun both => full both.1, CacheTable.insert, if_neg old, if_neg full]
      exact tracks_cons kept sorted later entry

private theorem used_le_of_mem_use (late : ∀ e ∈ timed, e.used < now) (key : κ) :
    ∀ e ∈ timed.use key now, e.used ≤ now := by
  intro e member
  obtain ⟨before, listed, rfl⟩ := List.mem_map.mp member
  split
  · exact Nat.le_refl now
  · exact Nat.le_of_lt (late before listed)

private theorem used_le_of_mem_put (late : ∀ e ∈ timed, e.used < now) (capacity : Nat) (entry : CacheEntry κ ι α) :
    ∀ e ∈ timed.put capacity now entry, e.used ≤ now := by
  intro e member
  rcases List.mem_cons.mp member with rfl | kept
  · exact Nat.le_refl now
  · have before := List.mem_of_mem_filter kept
    split at before
    · exact Nat.le_of_lt (late e (evict_subset timed before))
    · exact Nat.le_of_lt (late e before)

end TimedTable

structure TimedTables where
  files : TimedTable FileKey FileInput FileCheck
  projects : TimedTable ProjectId Stamp ProjectCheck

namespace TimedTables

def lookUp (tables : TimedTables) (cache : Cache) : Inquiry → TimedTables
  | .file path version text options =>
    let key := (options.project, path.components)
    match tables.files.entries.find? key (version, options.stamp, text) cache.clock cache.lifetime with
    | some _ => { tables with files := tables.files.use key cache.clock }
    | none => tables
  | .project options =>
    match tables.projects.entries.find? options.project options.stamp cache.clock cache.lifetime with
    | some _ => { tables with projects := tables.projects.use options.project cache.clock }
    | none => tables

def record (inner : Checker Id) (tables : TimedTables) (cache : Cache) : Inquiry → TimedTables
  | .file path version text options =>
    match (inner.file path version text options).run with
    | .ok check =>
      let entry := ⟨(options.project, path.components), (version, options.stamp, text), check, cache.clock⟩
      { tables with files := tables.files.put cache.capacity cache.clock entry }
    | .error _ => tables
  | .project options =>
    match (inner.project options).run with
    | .ok uses =>
      let entry := ⟨options.project, options.stamp, uses, cache.clock⟩
      { tables with projects := tables.projects.put cache.capacity cache.clock entry }
    | .error _ => tables

/-- What an event does to the tables that stand in for those of a cache. -/
def step (inner : Checker Id) (tables : TimedTables) (world : World) : Event → TimedTables
  | .ask q => tables.lookUp world.cache q
  | .finish index =>
    match world.pending[index]? with
    | some q => tables.record inner world.cache q
    | none => tables
  | _ => tables

def run (inner : Checker Id) : TimedTables → World → List Event → TimedTables
  | tables, _, [] => tables
  | tables, world, event :: rest => run inner (tables.step inner world event) (world.step inner event) rest

private theorem clock_lookUp (cache : Cache) (q : Inquiry) : (cache.lookUp q).2.clock = cache.clock := by
  cases q <;> simp only [Cache.lookUp] <;> split <;> rfl

private theorem clock_record (inner : Checker Id) (cache : Cache) (q : Inquiry) :
    (cache.record inner q).clock = cache.clock := by
  cases q <;> simp only [Cache.record] <;> split <;> rfl

/-- The same entries as in the tables of a cache, all of them last used before a time. -/
structure Tracks (tables : TimedTables) (cache : Cache) (time : Nat) : Prop where
  files : tables.files.Tracks cache.files
  projects : tables.projects.Tracks cache.projects
  filesUsed : ∀ e ∈ tables.files, e.used < time
  projectsUsed : ∀ e ∈ tables.projects, e.used < time

variable {inner : Checker Id} {tables : TimedTables} {cache : Cache} {world : World} {n time : Nat}
  {files : List FileKey} {projects : List ProjectId}

theorem Tracks.mono (tracks : tables.Tracks cache time) {later : Nat} (ordered : time ≤ later) :
    tables.Tracks cache later :=
  ⟨tracks.files, tracks.projects, fun e inside => Nat.lt_of_lt_of_le (tracks.filesUsed e inside) ordered,
    fun e inside => Nat.lt_of_lt_of_le (tracks.projectsUsed e inside) ordered⟩

theorem Tracks.lookUp (tracks : tables.Tracks cache cache.clock) (recent : cache.Recent n files projects) (q : Inquiry) :
    (tables.lookUp cache q).Tracks (cache.lookUp q).2 (cache.clock + 1) := by
  have fileKeys : cache.files.keys.Nodup := recent.files ▸ nodup_newest n files
  have projectKeys : cache.projects.keys.Nodup := recent.projects ▸ nodup_newest n projects
  have late := tracks.mono (Nat.le_succ cache.clock)
  cases q with
  | file path version text options =>
    simp only [TimedTables.lookUp, Cache.lookUp, Cache.lookupFile?, tracks.files.find?_eq fileKeys]
    cases found : cache.files.find? (options.project, path.components) (version, options.stamp, text) cache.clock
        cache.lifetime with
    | some check =>
      refine ⟨?_, tracks.projects, ?_, late.projectsUsed⟩
      · exact tracks.files.use fileKeys tracks.filesUsed (CacheTable.mem_keys_of_find? found)
      · exact fun e inside => Nat.lt_succ_of_le (TimedTable.used_le_of_mem_use tracks.filesUsed _ e inside)
    | none => exact ⟨tracks.files, tracks.projects, late.filesUsed, late.projectsUsed⟩
  | project options =>
    simp only [TimedTables.lookUp, Cache.lookUp, Cache.lookupProject?, tracks.projects.find?_eq projectKeys]
    cases found : cache.projects.find? options.project options.stamp cache.clock cache.lifetime with
    | some uses =>
      refine ⟨tracks.files, ?_, late.filesUsed, ?_⟩
      · exact tracks.projects.use projectKeys tracks.projectsUsed (CacheTable.mem_keys_of_find? found)
      · exact fun e inside => Nat.lt_succ_of_le (TimedTable.used_le_of_mem_use tracks.projectsUsed _ e inside)
    | none => exact ⟨tracks.files, tracks.projects, late.filesUsed, late.projectsUsed⟩

theorem Tracks.record (tracks : tables.Tracks cache cache.clock) (recent : cache.Recent n files projects) (q : Inquiry) :
    (tables.record inner cache q).Tracks (cache.record inner q) (cache.clock + 1) := by
  have fileKeys : cache.files.keys.Nodup := recent.files ▸ nodup_newest n files
  have projectKeys : cache.projects.keys.Nodup := recent.projects ▸ nodup_newest n projects
  have late := tracks.mono (Nat.le_succ cache.clock)
  cases q with
  | file path version text options =>
    simp only [TimedTables.record, Cache.record]
    cases (inner.file path version text options).run with
    | ok check =>
      refine ⟨tracks.files.put fileKeys tracks.filesUsed _ _, tracks.projects, ?_, late.projectsUsed⟩
      exact fun e inside => Nat.lt_succ_of_le (TimedTable.used_le_of_mem_put tracks.filesUsed _ _ e inside)
    | error e => exact late
  | project options =>
    simp only [TimedTables.record, Cache.record]
    cases (inner.project options).run with
    | ok uses =>
      refine ⟨tracks.files, tracks.projects.put projectKeys tracks.projectsUsed _ _, late.filesUsed, ?_⟩
      exact fun e inside => Nat.lt_succ_of_le (TimedTable.used_le_of_mem_put tracks.projectsUsed _ _ e inside)
    | error e => exact late

/-- A request that comes after all uses keeps the tables in step with those of the cache. -/
theorem Tracks.step (tracks : tables.Tracks world.cache world.cache.clock) (recent : world.Recent n) {event : Event}
    (keeps : event.forgets = false) :
    (tables.step inner world event).Tracks (world.step inner event).cache ((world.step inner event).cache.clock + 1) := by
  cases event with
  | ask q =>
    have next := Tracks.lookUp tracks recent q
    rw [← clock_lookUp] at next
    simp only [World.step]
    split
    · next recalled =>
      rw [recalled] at next
      exact next
    · next recalled =>
      rw [recalled] at next
      exact next
  | finish index =>
    simp only [World.step, TimedTables.step]
    cases world.pending[index]? with
    | none => exact tracks.mono (Nat.le_succ _)
    | some q =>
      have next := @Tracks.record inner _ _ _ _ _ tracks recent q
      rwa [← clock_record] at next
  | wait time =>
    have later := tracks.mono (show world.cache.clock ≤ world.cache.clock + time + 1 by omega)
    exact ⟨later.files, later.projects, later.filesUsed, later.projectsUsed⟩
  | invalidate | clear | removeExpired | forgetFiles | forgetProjects => cases keeps

def spaced (moments : List (Nat × Event)) : List Event :=
  moments.flatMap fun m => [.wait m.1, m.2]

theorem Tracks.run (tracks : tables.Tracks world.cache (world.cache.clock + 1)) (recent : world.Recent n)
    {moments : List (Nat × Event)} (apart : ∀ m ∈ moments, 0 < m.1 ∧ m.2.forgets = false) :
    (tables.run inner world (spaced moments)).Tracks (world.run inner (spaced moments)).cache
      ((world.run inner (spaced moments)).cache.clock + 1) := by
  induction moments generalizing tables world with
  | nil => exact tracks
  | cons m rest ih =>
    obtain ⟨passes, keeps⟩ := apart m (List.mem_cons_self ..)
    have waited : (world.step inner (.wait m.1)).Recent n := recent.step rfl
    have later : tables.Tracks (world.step inner (.wait m.1)).cache (world.step inner (.wait m.1)).cache.clock := by
      have mono := tracks.mono (show world.cache.clock + 1 ≤ world.cache.clock + m.1 by omega)
      exact ⟨mono.files, mono.projects, mono.filesUsed, mono.projectsUsed⟩
    exact ih (later.step waited keeps) (waited.step keeps) fun m inside => apart m (List.mem_cons_of_mem _ inside)

end TimedTables

namespace World

/-- The keys that are remembered are those that were answered last, as many as fit, and each request is a hit or a miss.
Tables whose entries carry the times of their uses, and which drop the one with the least, remember the same while time
passes between requests. A request that nothing interrupts is a call of the remembering checker. -/
theorem newest_remembered (inner : Checker Id) (lifetime capacity : Nat) :
    (∀ events : List Event, (∀ e ∈ events, e.forgets = false) →
      let world := (create lifetime capacity).run inner events
      world.cache.files.keys = newest (max 1 capacity) (world.answered Inquiry.fileKey?) ∧
      world.cache.projects.keys = newest (max 1 capacity) (world.answered Inquiry.projectKey?) ∧
      world.cache.hits + world.cache.misses = (events.filterMap Event.inquiry?).length) ∧
    (∀ moments : List (Nat × Event), (∀ m ∈ moments, 0 < m.1 ∧ m.2.forgets = false) →
      let world := (create lifetime capacity).run inner (TimedTables.spaced moments)
      let tables := TimedTables.run inner ⟨[], []⟩ (create lifetime capacity) (TimedTables.spaced moments)
      tables.files.entries.keys.Perm (newest (max 1 capacity) (world.answered Inquiry.fileKey?)) ∧
      tables.projects.entries.keys.Perm (newest (max 1 capacity) (world.answered Inquiry.projectKey?)) ∧
      tables.files.Tracks world.cache.files ∧ tables.projects.Tracks world.cache.projects) ∧
    (∀ cache answers path version text options,
      run inner ⟨cache, [], answers⟩ [.ask (.file path version text options), .finish 0] =
        let checked := (cachedChecker inner).file path version text options cache
        ⟨checked.2, [], (.file path version text options, checked.1.map .file) :: answers⟩) ∧
    ∀ cache answers options, run inner ⟨cache, [], answers⟩ [.ask (.project options), .finish 0] =
      let checked := (cachedChecker inner).project options cache
      ⟨checked.2, [], (.project options, checked.1.map .project) :: answers⟩ := by
  refine ⟨?_, ?_, ?_, ?_⟩
  · intro events keeps world
    have recent : world.Recent (max 1 capacity) := (recent_create lifetime capacity).run keeps
    have counts := @counts_run inner (create lifetime capacity) events keeps
    exact ⟨recent.files, recent.projects, counts.trans (Nat.zero_add _)⟩
  · intro moments apart world tables
    have keeps : ∀ e ∈ TimedTables.spaced moments, e.forgets = false := by
      intro e member
      obtain ⟨m, inside, listed⟩ := List.mem_flatMap.mp member
      rcases List.mem_cons.mp listed with rfl | last
      · rfl
      · exact List.mem_singleton.mp last ▸ (apart m inside).2
    have recent : world.Recent (max 1 capacity) := (recent_create lifetime capacity).run keeps
    have empty : TimedTables.Tracks ⟨[], []⟩ (create lifetime capacity).cache ((create lifetime capacity).cache.clock + 1) :=
      ⟨⟨[], .refl _, .nil, rfl⟩, ⟨[], .refl _, .nil, rfl⟩, List.forall_mem_nil _, List.forall_mem_nil _⟩
    have tracks := @TimedTables.Tracks.run inner _ _ _ empty (recent_create lifetime capacity) moments apart
    refine ⟨?_, ?_, tracks.files, tracks.projects⟩
    · rw [← recent.files]
      exact tracks.files.perm.map _
    · rw [← recent.projects]
      exact tracks.projects.perm.map _
  · intro cache answers path version text options
    rw [run_uninterrupted, Cache.check_file]
    rfl
  · intro cache answers options
    rw [run_uninterrupted, Cache.check_project]
    rfl

end World

namespace Sample

def fileInquiry (name : String) (version : Nat) : Inquiry :=
  .file (.ofText name) version "" ⟨"P", [], [], [], .given 0⟩

/-- Two files, the first of them again, a failure, a newer version of the first, and a third file. -/
def mixedRequests : List (Nat × Event) :=
  [(1, .ask (fileInquiry "a" 1)), (1, .finish 0), (1, .ask (fileInquiry "b" 1)), (1, .finish 0),
    (1, .ask (fileInquiry "a" 1)), (1, .ask (fileInquiry "c" 0)), (1, .finish 0), (1, .ask (fileInquiry "a" 2)),
    (1, .finish 0), (1, .ask (fileInquiry "c" 1)), (1, .finish 0)]

/-- Where two files fit, the second one is forgotten. -/
theorem second_file_forgotten :
    let world := (World.create 100 2).run strictChecker (TimedTables.spaced mixedRequests)
    let tables := TimedTables.run strictChecker ⟨[], []⟩ (World.create 100 2) (TimedTables.spaced mixedRequests)
    newest 2 (world.answered Inquiry.fileKey?) = [("P", [.name "c"]), ("P", [.name "a"])] ∧
      tables.files.entries.keys.Perm [("P", [.name "c"]), ("P", [.name "a"])] ∧
      world.cache.hits + world.cache.misses = 6 ∧ world.cache.hits = 1 := by
  intro world tables
  obtain ⟨plain, timed, -⟩ := World.newest_remembered strictChecker 100 2
  obtain ⟨files, -, counts⟩ := plain (TimedTables.spaced mixedRequests) (by decide)
  obtain ⟨same, -⟩ := timed mixedRequests (by decide)
  have keys : world.cache.files.keys = [("P", [.name "c"]), ("P", [.name "a"])] := by decide
  rw [← files, keys] at same
  exact ⟨files.symm.trans keys, same, counts, by decide⟩

end Sample

end CrossRef
