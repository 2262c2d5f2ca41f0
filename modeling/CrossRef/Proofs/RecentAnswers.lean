import CrossRef.Collect.Distinct
import CrossRef.Proofs.RememberedChecks

/-! Which answers are remembered: those of the keys that were answered last, as many as fit. An answer is given when it
is recalled or when it was computed. Each of these brings its key to the front of the table, and a failure leaves the
table as it is. -/

namespace CrossRef

section lists

variable {κ : Type} [DecidableEq κ] {recent : List κ} {key : κ}

private theorem filter_take_of_mem (distinct : recent.Nodup) {n : Nat} (inside : key ∈ recent.take (n + 1)) :
    (recent.take (n + 1)).filter (· ≠ key) = (recent.filter (· ≠ key)).take n := by
  induction recent generalizing n with
  | nil => cases inside
  | cons first rest ih =>
    obtain ⟨fresh, distinct⟩ := List.nodup_cons.mp distinct
    rw [List.take_succ_cons] at inside ⊢
    by_cases same : first = key
    · subst same
      have others : ∀ l : List κ, l ⊆ rest → l.filter (· ≠ first) = l := by
        intro l among
        refine List.filter_eq_self.mpr fun k member => ?_
        exact decide_eq_true fun equal : k = first => fresh (equal ▸ among member)
      rw [List.filter_cons_of_neg (by simp), List.filter_cons_of_neg (by simp), others _ (List.take_subset ..),
        others _ (List.Subset.refl _)]
    · have later : key ∈ rest.take n := (List.mem_cons.mp inside).resolve_left (Ne.symm same)
      cases n with
      | zero => cases later
      | succ n =>
        rw [List.filter_cons_of_pos (by simpa using same), List.filter_cons_of_pos (by simpa using same), ih distinct later,
          List.take_succ_cons]

private theorem take_filter_of_not_mem {n : Nat} (outside : key ∉ recent.take n) :
    (recent.filter (· ≠ key)).take n = recent.take n := by
  induction recent generalizing n with
  | nil => rfl
  | cons first rest ih =>
    cases n with
    | zero => rfl
    | succ n =>
      rw [List.take_succ_cons, List.mem_cons, not_or] at outside
      rw [List.filter_cons_of_pos (by simpa using Ne.symm outside.1), List.take_succ_cons, List.take_succ_cons,
        ih outside.2]

end lists

namespace CacheTable

variable {κ ι α : Type} [DecidableEq κ] {table : CacheTable κ ι α} {recent : List κ} {n : Nat}

def keys (table : CacheTable κ ι α) : List κ :=
  table.map (·.key)

private theorem keys_filter (table : CacheTable κ ι α) (key : κ) :
    keys (table.filter (·.key ≠ key)) = table.keys.filter (· ≠ key) := by
  rw [keys, keys, List.filter_map]
  rfl

theorem hasKey_iff {key : κ} : table.hasKey key = true ↔ key ∈ table.keys := by
  simp [hasKey, keys, List.any_eq_true]

theorem mem_keys_of_find? [DecidableEq ι] {key : κ} {input : ι} {now lifetime : Nat} {value : α}
    (found : table.find? key input now lifetime = some value) : key ∈ table.keys := by
  obtain ⟨entry, first, -⟩ := Option.bind_eq_some_iff.mp found
  have keyed : entry.key = key := by simpa using List.find?_some first
  exact keyed ▸ List.mem_map_of_mem (List.mem_of_find?_eq_some first)

private theorem keys_touch (distinct : recent.Nodup) (keys : table.keys = recent.take n) {key : κ}
    (inside : key ∈ table.keys) : (table.touch key).keys = (key :: recent.filter (· ≠ key)).take n := by
  obtain ⟨entry, member, rfl⟩ := List.mem_map.mp inside
  have nodup : (table.map (·.key)).Nodup := by
    rw [← CacheTable.keys, keys]
    exact distinct.sublist (List.take_sublist ..)
  cases n with
  | zero =>
    rw [keys] at inside
    cases inside
  | succ n =>
    rw [List.take_succ_cons, ← filter_take_of_mem distinct (keys ▸ inside), ← keys, ← keys_filter, touch,
      filter_eq_singleton nodup member]
    rfl

/-- A new entry comes to the front. It takes the place of the entry with its key, or else that of the last one in a full
table. -/
theorem keys_insert (distinct : recent.Nodup) (keys : table.keys = recent.take n) (room : 0 < n)
    (entry : CacheEntry κ ι α) : (table.insert n entry).keys = (entry.key :: recent.filter (· ≠ entry.key)).take n := by
  obtain ⟨n, rfl⟩ := Nat.exists_eq_add_one_of_ne_zero (Nat.ne_of_gt room)
  have length := congrArg List.length keys
  rw [CacheTable.keys, List.length_map, List.length_take] at length
  rw [List.take_succ_cons, insert]
  split
  · next known =>
    rw [← filter_take_of_mem distinct (keys ▸ hasKey_iff.mp known), ← keys, ← keys_filter]
    rfl
  · next unknown =>
    have outside : entry.key ∉ recent.take (n + 1) := by rwa [← keys, ← hasKey_iff]
    have before : entry.key ∉ recent.take n := fun inside => outside (List.take_subset_take_left _ (by omega) inside)
    rw [take_filter_of_not_mem before]
    split
    · next full =>
      have short : n < recent.length := by omega
      have last : CacheTable.keys table.dropLast = recent.take n := by
        have fewer : min (min (n + 1) recent.length - 1) (n + 1) = n := by omega
        rw [CacheTable.keys, List.map_dropLast, ← CacheTable.keys, keys, List.dropLast_eq_take, List.length_take,
          List.take_take, fewer]
      rw [← last]
      rfl
    · next free =>
      have all : recent.length ≤ n := by omega
      rw [List.take_of_length_le all, ← List.take_of_length_le (Nat.le_succ_of_le all), ← keys]
      rfl

end CacheTable

def Inquiry.fileKey? : Inquiry → Option FileKey
  | file path _ _ options => some (options.project, path.components)
  | project _ => none

def Inquiry.projectKey? : Inquiry → Option ProjectId
  | file .. => none
  | project options => some options.project

/-- Whether something can be forgotten without a request. -/
def Event.forgets : Event → Bool
  | ask _ | finish _ | wait _ => false
  | invalidate _ | clear | removeExpired | forgetFiles _ | forgetProjects _ => true

def newest {κ : Type} [DecidableEq κ] [Hashable κ] (n : Nat) (keys : List κ) : List κ :=
  (distinctBy id keys).take n

section newest

variable {κ ι α : Type} [DecidableEq κ] [Hashable κ] {table : CacheTable κ ι α} {keys : List κ} {n : Nat}

theorem newest_nil (n : Nat) : newest n ([] : List κ) = [] := by
  rw [newest, distinctBy_nil, List.take_nil]

private theorem nodup_distinct (keys : List κ) : (distinctBy id keys).Nodup :=
  pairwise_distinctBy id keys

theorem nodup_newest (n : Nat) (keys : List κ) : (newest n keys).Nodup :=
  (nodup_distinct keys).sublist (List.take_sublist ..)

private theorem CacheTable.newest_touch (recent : table.keys = newest n keys) {key : κ} (inside : key ∈ table.keys) :
    (table.touch key).keys = newest n (key :: keys) := by
  rw [keys_touch (nodup_distinct keys) recent inside, newest, distinctBy_cons]
  rfl

private theorem CacheTable.newest_insert (recent : table.keys = newest n keys) (room : 0 < n)
    (entry : CacheEntry κ ι α) : (table.insert n entry).keys = newest n (entry.key :: keys) := by
  rw [keys_insert (nodup_distinct keys) recent room, newest, distinctBy_cons]
  rfl

end newest

namespace Cache

variable {inner : Checker Id} {cache : Cache} {n : Nat} {files : List FileKey} {projects : List ProjectId}

/-- The tables hold the `n` keys that were answered last. The keys are given with the last one first. -/
structure Recent (cache : Cache) (n : Nat) (files : List FileKey) (projects : List ProjectId) : Prop where
  capacity : cache.capacity = n
  room : 0 < n
  files : cache.files.keys = newest n files
  projects : cache.projects.keys = newest n projects

theorem Recent.miss (recent : cache.Recent n files projects) : cache.miss.Recent n files projects :=
  ⟨recent.capacity, recent.room, recent.files, recent.projects⟩

theorem Recent.lookUp (recent : cache.Recent n files projects) {q : Inquiry} {a : Answer}
    (recalled : (cache.lookUp q).1 = some a) :
    (cache.lookUp q).2.Recent n (q.fileKey?.toList ++ files) (q.projectKey?.toList ++ projects) := by
  cases q with
  | file path version text options =>
    simp only [Cache.lookUp] at recalled ⊢
    split at recalled
    · next found =>
      have front := CacheTable.newest_touch recent.files (CacheTable.mem_keys_of_find? found)
      exact ⟨recent.capacity, recent.room, front, recent.projects⟩
    · cases recalled
  | project options =>
    simp only [Cache.lookUp] at recalled ⊢
    split at recalled
    · next found =>
      have front := CacheTable.newest_touch recent.projects (CacheTable.mem_keys_of_find? found)
      exact ⟨recent.capacity, recent.room, recent.files, front⟩
    · cases recalled

theorem Recent.record (recent : cache.Recent n files projects) {q : Inquiry} {a : Answer}
    (answered : q.answer inner = .ok a) :
    (cache.record inner q).Recent n (q.fileKey?.toList ++ files) (q.projectKey?.toList ++ projects) := by
  obtain ⟨rfl, room, fileKeys, projectKeys⟩ := recent
  cases q with
  | file path version text options =>
    simp only [Inquiry.answer, Cache.record] at answered ⊢
    split
    · exact ⟨rfl, room, CacheTable.newest_insert fileKeys room _, projectKeys⟩
    · next failed =>
      rw [failed] at answered
      cases answered
  | project options =>
    simp only [Inquiry.answer, Cache.record] at answered ⊢
    split
    · exact ⟨rfl, room, fileKeys, CacheTable.newest_insert projectKeys room _⟩
    · next failed =>
      rw [failed] at answered
      cases answered

private theorem lookUp_counts (cache : Cache) (q : Inquiry) :
    (cache.lookUp q).2.hits + (cache.lookUp q).2.misses = cache.hits + cache.misses + 1 := by
  cases q <;> simp only [lookUp] <;> split <;> simp only [hitFile, hitProject, miss] <;> omega

private theorem record_counts (cache : Cache) (q : Inquiry) :
    (cache.record inner q).hits + (cache.record inner q).misses = cache.hits + cache.misses := by
  cases q <;> simp only [record] <;> split <;> rfl

end Cache

namespace World

variable {inner : Checker Id} {world : World} {n : Nat}

/-- The keys of the requests that were answered, the last one first. A failure is no answer. -/
def answered {κ : Type} (world : World) (key? : Inquiry → Option κ) : List κ :=
  world.answers.filterMap fun
    | (q, .ok _) => key? q
    | (_, .error _) => none

/-- The tables of a cache that several requests share hold the keys that were answered last. -/
def Recent (world : World) (n : Nat) : Prop :=
  world.cache.Recent n (world.answered Inquiry.fileKey?) (world.answered Inquiry.projectKey?)

theorem recent_create (lifetime capacity : Nat) : (create lifetime capacity).Recent (max 1 capacity) :=
  ⟨rfl, Nat.lt_of_lt_of_le Nat.zero_lt_one (Nat.le_max_left ..), (newest_nil _).symm, (newest_nil _).symm⟩

theorem answered_cons {κ : Type} (key? : Inquiry → Option κ) (cache : Cache) (pending : List Inquiry) (q : Inquiry)
    (a : Answer) (answers : List (Inquiry × Except CheckError Answer)) :
    answered ⟨cache, pending, (q, .ok a) :: answers⟩ key? =
      (key? q).toList ++ answered ⟨cache, pending, answers⟩ key? := by
  simp only [answered]
  cases given : key? q <;> simp [given]

theorem Recent.step (recent : world.Recent n) {event : Event} (keeps : event.forgets = false) :
    (world.step inner event).Recent n := by
  cases event with
  | ask q =>
    simp only [World.step]
    split
    · next a cache recalled =>
      have known := Cache.Recent.lookUp recent (congrArg Prod.fst recalled)
      rw [recalled] at known
      rw [Recent, answered_cons, answered_cons]
      exact known
    · next cache recalled =>
      have missed := Cache.lookUp_eq_miss (congrArg Prod.fst recalled)
      rw [recalled] at missed
      obtain rfl : cache = world.cache.miss := missed
      exact Cache.Recent.miss recent
  | finish index =>
    simp only [World.step]
    split
    · exact recent
    · next q found =>
      cases outcome : q.answer inner with
      | ok a =>
        rw [Recent, answered_cons, answered_cons]
        exact Cache.Recent.record recent outcome
      | error e =>
        rw [Cache.record_of_error outcome]
        exact recent
  | wait time => exact ⟨recent.capacity, recent.room, recent.files, recent.projects⟩
  | invalidate | clear | removeExpired | forgetFiles | forgetProjects => cases keeps

private theorem counts_step {event : Event} (keeps : event.forgets = false) :
    (world.step inner event).cache.hits + (world.step inner event).cache.misses =
      world.cache.hits + world.cache.misses + event.inquiry?.toList.length := by
  cases event with
  | ask q =>
    have counts := world.cache.lookUp_counts q
    simp only [step]
    split
    · next recalled =>
      rw [recalled] at counts
      exact counts
    · next recalled =>
      rw [recalled] at counts
      exact counts
  | finish index =>
    simp only [step]
    split
    · rfl
    · exact world.cache.record_counts _
  | wait => rfl
  | invalidate | clear | removeExpired | forgetFiles | forgetProjects => cases keeps

theorem Recent.run (recent : world.Recent n) {events : List Event} (keeps : ∀ e ∈ events, e.forgets = false) :
    (world.run inner events).Recent n := by
  induction events generalizing world with
  | nil => exact recent
  | cons event rest ih =>
    exact ih (recent.step (keeps event (List.mem_cons_self ..))) fun e later => keeps e (List.mem_cons_of_mem _ later)

theorem counts_run {events : List Event} (keeps : ∀ e ∈ events, e.forgets = false) :
    (world.run inner events).cache.hits + (world.run inner events).cache.misses =
      world.cache.hits + world.cache.misses + (events.filterMap Event.inquiry?).length := by
  induction events generalizing world with
  | nil => rfl
  | cons event rest ih =>
    have first := @counts_step inner world event (keeps event (List.mem_cons_self ..))
    have split : ((event :: rest).filterMap Event.inquiry?).length =
        event.inquiry?.toList.length + (rest.filterMap Event.inquiry?).length := by
      cases asked : event.inquiry? <;> simp [asked, Nat.add_comm]
    calc ((world.step inner event).run inner rest).cache.hits + ((world.step inner event).run inner rest).cache.misses
      _ = (world.step inner event).cache.hits + (world.step inner event).cache.misses +
          (rest.filterMap Event.inquiry?).length := ih fun e later => keeps e (List.mem_cons_of_mem _ later)
      _ = world.cache.hits + world.cache.misses + ((event :: rest).filterMap Event.inquiry?).length := by
        rw [first, split, Nat.add_assoc]

end World

end CrossRef
