import CrossRef.Check.Cache
import CrossRef.Proofs.SymbolIdentity
import Mathlib.Logic.Equiv.List

/-! Remembered answers are right, in whatever order requests meet. A request first looks its answer up; where
none is known it is computed and stored later, and other requests, upkeep and time may come between. A table
has one entry for each key, so a slow request can replace the entry of a newer one. What survives every order
is that an entry is the answer to some request that has its key and its input. -/

namespace CrossRef

namespace CacheTable

variable {κ ι α : Type} {table : CacheTable κ ι α} {known : κ → ι → α → Prop}

/-- Only what is known is in the table. -/
def Sound (table : CacheTable κ ι α) (known : κ → ι → α → Prop) : Prop :=
  ∀ entry ∈ table, known entry.key entry.input entry.value

theorem Sound.subset (sound : table.Sound known) {other : CacheTable κ ι α} (fewer : other ⊆ table) :
    other.Sound known :=
  fun entry member => sound entry (fewer member)

theorem Sound.filter (sound : table.Sound known) (kept : CacheEntry κ ι α → Bool) :
    Sound (List.filter kept table) known :=
  sound.subset (List.filter_subset_self table)

variable [DecidableEq κ]

theorem Sound.touch (sound : table.Sound known) (key : κ) : (table.touch key).Sound known := by
  intro entry member
  rcases List.mem_append.mp member with front | behind
  · exact sound.filter _ entry front
  · exact sound.filter _ entry behind

theorem Sound.insert (sound : table.Sound known) (capacity : Nat) {entry : CacheEntry κ ι α}
    (right : known entry.key entry.input entry.value) : (table.insert capacity entry).Sound known := by
  have cons : ∀ {rest : CacheTable κ ι α}, rest.Sound known → Sound (entry :: rest) known :=
    fun rest => List.forall_mem_cons.mpr ⟨right, rest⟩
  unfold CacheTable.insert
  split
  · exact cons (sound.filter _)
  · split
    · exact cons (sound.subset (List.dropLast_subset table))
    · exact cons sound

private theorem Sound.known_of_find? [DecidableEq ι] (sound : table.Sound known) {key : κ} {input : ι}
    {now lifetime : Nat} {value : α}
    (found : table.find? key input now lifetime = some value) : known key input value := by
  obtain ⟨entry, first, given⟩ := Option.bind_eq_some_iff.mp found
  have right := sound entry (List.mem_of_find?_eq_some first)
  have keyed : entry.key = key := by simpa using List.find?_some first
  split at given
  · next valid =>
    obtain rfl := Option.some.inj given
    rw [← keyed, ← valid.1]
    exact right
  · cases given

end CacheTable

def CacheEntry.digested {κ ι α η : Type} (digest : ι → η) (entry : CacheEntry κ ι α) : CacheEntry κ η α :=
  ⟨entry.key, digest entry.input, entry.value, entry.created⟩

/-- A table of digests is as good as the table of inputs if no two inputs share a digest. -/
theorem CacheTable.find?_digested {κ ι α η : Type} [DecidableEq κ] [DecidableEq ι] [DecidableEq η]
    {digest : ι → η} (different : digest.Injective) (table : CacheTable κ ι α) (key : κ) (input : ι)
    (now lifetime : Nat) :
    CacheTable.find? (table.map (·.digested digest)) key (digest input) now lifetime =
      table.find? key input now lifetime := by
  unfold CacheTable.find?
  rw [List.find?_map]
  cases found : List.find? (fun entry => decide (entry.key = key)) table with
  | none => simp [Function.comp_def, CacheEntry.digested, found]
  | some entry => simp [Function.comp_def, CacheEntry.digested, found, different.eq_iff]

/-- The input of a file as one text, with a number for the stamp. -/
def FileInput.written (number : Stamp → Nat) (input : FileInput) : String :=
  toString input.1 ++ ":" ++ toString (number input.2.1) ++ ":" ++ input.2.2

/-- The first two colons end the version and the stamp, whatever the text has. -/
theorem FileInput.written_injective {number : Stamp → Nat} (numbered : number.Injective) :
    (FileInput.written number).Injective := by
  rintro ⟨version, stamp, text⟩ ⟨version', stamp', text'⟩ same
  have lists := congrArg String.toList same
  have colon : ":".toList = [':'] := rfl
  simp only [written, String.toList_append, List.append_assoc, colon, List.singleton_append] at lists
  have free : ∀ n : Nat, ':' ∉ (toString n).toList := Check.not_mem_toString (by decide)
  obtain ⟨versions, rest⟩ := Check.append_eq_append_of_first (free _) (free _) lists
  obtain ⟨stamps, texts⟩ := Check.append_eq_append_of_first (free _) (free _) rest
  rw [Nat.repr_injective (String.toList_inj.mp versions),
    numbered (Nat.repr_injective (String.toList_inj.mp stamps)), String.toList_inj.mp texts]

/-- What a checker can be asked. -/
inductive Inquiry where
  | file (path : Path) (version : Nat) (text : String) (options : Options)
  | project (options : Options)

inductive Answer where
  | file (check : FileCheck)
  | project (check : ProjectCheck)

namespace Inquiry

def options : Inquiry → Options
  | file _ _ _ options => options
  | project options => options

/-- What a checker says that remembers nothing. -/
def answer (inner : Checker Id) : Inquiry → Except CheckError Answer
  | file path version text options => (inner.file path version text options).run.map .file
  | project options => (inner.project options).run.map .project

/-- What callers promise: options that have one project and one stamp are the same, and within a project
a path is always spelled in one way. -/
structure Contract (asked : Inquiry → Prop) : Prop where
  options : ∀ {q r}, asked q → asked r → q.options.project = r.options.project →
    q.options.stamp = r.options.stamp → q.options = r.options
  spelling : ∀ {path version text options path' version' text' options'},
    asked (.file path version text options) → asked (.file path' version' text' options') →
    options.project = options'.project → path.components = path'.components → path = path'

theorem Contract.mono {asked fewer : Inquiry → Prop} (contract : Contract asked)
    (among : ∀ q, fewer q → asked q) : Contract fewer :=
  ⟨fun first second => contract.options (among _ first) (among _ second),
    fun first second => contract.spelling (among _ first) (among _ second)⟩

end Inquiry

namespace Cache

variable {inner : Checker Id} {asked : Inquiry → Prop} {cache : Cache}

/-- The first phase of a request: the answer, if it is known. -/
def lookUp (cache : Cache) : Inquiry → Option Answer × Cache
  | .file path version text options =>
    let key := (options.project, path.components)
    match cache.lookupFile? key (version, options.stamp, text) with
    | some check => (some (.file check), cache.hitFile key)
    | none => (none, cache.miss)
  | .project options =>
    match cache.lookupProject? options.project options.stamp with
    | some uses => (some (.project uses), cache.hitProject options.project)
    | none => (none, cache.miss)

/-- The second phase, after the answer was computed. -/
def record (inner : Checker Id) (cache : Cache) : Inquiry → Cache
  | .file path version text options =>
    match (inner.file path version text options).run with
    | .ok check => cache.storeFile (options.project, path.components) (version, options.stamp, text) check
    | .error _ => cache
  | .project options =>
    match (inner.project options).run with
    | .ok uses => cache.storeProject options.project options.stamp uses
    | .error _ => cache

/-- Each entry is what the inner checker says to something that was asked. -/
structure Sound (cache : Cache) (inner : Checker Id) (asked : Inquiry → Prop) : Prop where
  files : cache.files.Sound fun key input check => ∃ path version text options,
    asked (.file path version text options) ∧ key = (options.project, path.components) ∧
      input = (version, options.stamp, text) ∧ (inner.file path version text options).run = .ok check
  projects : cache.projects.Sound fun key input uses => ∃ options,
    asked (.project options) ∧ key = options.project ∧ input = options.stamp ∧
      (inner.project options).run = .ok uses

theorem sound_create (lifetime capacity : Nat) : (create lifetime capacity).Sound inner asked :=
  ⟨List.forall_mem_nil _, List.forall_mem_nil _⟩

theorem Sound.lookUp (sound : cache.Sound inner asked) (q : Inquiry) :
    (cache.lookUp q).2.Sound inner asked := by
  cases q with
  | file path version text options =>
    simp only [Cache.lookUp]
    split
    · exact ⟨sound.files.touch _, sound.projects⟩
    · exact ⟨sound.files, sound.projects⟩
  | project options =>
    simp only [Cache.lookUp]
    split
    · exact ⟨sound.files, sound.projects.touch _⟩
    · exact ⟨sound.files, sound.projects⟩

theorem Sound.record (sound : cache.Sound inner asked) {q : Inquiry} (known : asked q) :
    (cache.record inner q).Sound inner asked := by
  cases q with
  | file path version text options =>
    simp only [Cache.record]
    split
    · next check given =>
      exact ⟨sound.files.insert _ ⟨path, version, text, options, known, rfl, rfl, given⟩, sound.projects⟩
    · exact sound
  | project options =>
    simp only [Cache.record]
    split
    · next uses given => exact ⟨sound.files, sound.projects.insert _ ⟨options, known, rfl, rfl, given⟩⟩
    · exact sound

/-- What is recalled is what the inner checker says. The entry may stem from another request; the contract
makes it a request for the same. -/
theorem Sound.answer_of_lookUp (sound : cache.Sound inner asked) (contract : Inquiry.Contract asked)
    {q : Inquiry} (known : asked q) {a : Answer} (recalled : (cache.lookUp q).1 = some a) :
    q.answer inner = .ok a := by
  cases q with
  | file path version text options =>
    simp only [Cache.lookUp] at recalled
    split at recalled
    · next check found =>
      obtain rfl := Option.some.inj recalled
      obtain ⟨path', version', text', options', earlier, keys, inputs, given⟩ :=
        sound.files.known_of_find? found
      obtain ⟨project, components⟩ := Prod.mk.inj keys
      simp only [Prod.mk.injEq] at inputs
      obtain ⟨rfl, stamp, rfl⟩ := inputs
      obtain rfl : options = options' := contract.options known earlier project stamp
      obtain rfl := contract.spelling known earlier rfl components
      simp [Inquiry.answer, given, Except.map]
    · cases recalled
  | project options =>
    simp only [Cache.lookUp] at recalled
    split at recalled
    · next uses found =>
      obtain rfl := Option.some.inj recalled
      obtain ⟨options', earlier, project, stamp, given⟩ := sound.projects.known_of_find? found
      obtain rfl : options = options' := contract.options known earlier project stamp
      simp [Inquiry.answer, given, Except.map]
    · cases recalled

theorem lookUp_eq_miss {q : Inquiry} (unknown : (cache.lookUp q).1 = none) :
    (cache.lookUp q).2 = cache.miss := by
  cases q <;> simp only [lookUp] at unknown ⊢ <;> split <;> simp_all

theorem record_of_error {q : Inquiry} {e : CheckError} (failed : q.answer inner = .error e) :
    cache.record inner q = cache := by
  cases q <;> simp only [record, Inquiry.answer] at failed ⊢ <;> split <;> simp_all [Except.map]

def check (inner : Checker Id) (cache : Cache) (q : Inquiry) : Except CheckError Answer × Cache :=
  match cache.lookUp q with
  | (some a, next) => (.ok a, next)
  | (none, next) => (q.answer inner, next.record inner q)

theorem check_file (path : Path) (version : Nat) (text : String) (options : Options) :
    cache.check inner (.file path version text options) =
      ((cache.checkFile inner path version text options).1.map .file,
        (cache.checkFile inner path version text options).2) := by
  simp only [check, lookUp, checkFile, Inquiry.answer, record]
  cases cache.lookupFile? (options.project, path.components) (version, options.stamp, text) with
  | some check => rfl
  | none => cases (inner.file path version text options).run <;> rfl

theorem check_project (options : Options) :
    cache.check inner (.project options) =
      ((cache.checkProject inner options).1.map .project, (cache.checkProject inner options).2) := by
  simp only [check, lookUp, checkProject, Inquiry.answer, record]
  cases cache.lookupProject? options.project options.stamp with
  | some check => rfl
  | none => cases (inner.project options).run <;> rfl

theorem Sound.check (sound : cache.Sound inner asked) (contract : Inquiry.Contract asked) {q : Inquiry}
    (known : asked q) : (cache.check inner q).1 = q.answer inner ∧ (cache.check inner q).2.Sound inner asked := by
  have kept := sound.lookUp q
  unfold Cache.check
  split
  · next a next recalled =>
    rw [recalled] at kept
    exact ⟨(sound.answer_of_lookUp contract known (congrArg Prod.fst recalled)).symm, kept⟩
  · next next recalled =>
    rw [recalled] at kept
    exact ⟨rfl, kept.record known⟩

private theorem eq_of_map_eq {ε α β : Type} {wrap : α → β} (distinct : wrap.Injective) {x y : Except ε α}
    (same : x.map wrap = y.map wrap) : x = y := by
  cases x <;> cases y <;> simp_all [Except.map, distinct.eq_iff]

theorem Sound.checkFile (sound : cache.Sound inner asked) (contract : Inquiry.Contract asked) {path : Path}
    {version : Nat} {text : String} {options : Options} (known : asked (.file path version text options)) :
    ∃ next, cache.checkFile inner path version text options = ((inner.file path version text options).run, next) ∧
      next.Sound inner asked := by
  obtain ⟨right, kept⟩ := sound.check contract known
  rw [check_file] at right kept
  exact ⟨_, Prod.ext (eq_of_map_eq (fun _ _ => Answer.file.inj) right) rfl, kept⟩

theorem Sound.checkProject (sound : cache.Sound inner asked) (contract : Inquiry.Contract asked) {options : Options}
    (known : asked (.project options)) :
    ∃ next, cache.checkProject inner options = ((inner.project options).run, next) ∧ next.Sound inner asked := by
  obtain ⟨right, kept⟩ := sound.check contract known
  rw [check_project] at right kept
  exact ⟨_, Prod.ext (eq_of_map_eq (fun _ _ => Answer.project.inj) right) rfl, kept⟩

end Cache

/-- A cache that several requests share: those that have looked up in vain and are still being computed, and
the answers that were given. -/
structure World where
  cache : Cache
  pending : List Inquiry
  answers : List (Inquiry × Except CheckError Answer)

/-- What can happen next. The tables are cleaned one after the other and any entry may be evicted, so
entries can also be forgotten in one table alone. -/
inductive Event where
  | ask (q : Inquiry)
  /-- A request that is being computed, by its position, stores what it got and answers. -/
  | finish (index : Nat)
  | wait (time : Nat)
  | invalidate (project : ProjectId)
  | clear
  | removeExpired
  | forgetFiles (kept : CacheEntry FileKey FileInput FileCheck → Bool)
  | forgetProjects (kept : CacheEntry ProjectId Stamp ProjectCheck → Bool)

def Event.inquiry? : Event → Option Inquiry
  | ask q => some q
  | _ => none

namespace World

variable {inner : Checker Id} {asked : Inquiry → Prop} {world : World}

def create (lifetime capacity : Nat) : World :=
  ⟨.create lifetime capacity, [], []⟩

def step (inner : Checker Id) (world : World) : Event → World
  | .ask q =>
    match world.cache.lookUp q with
    | (some a, cache) => { world with cache, answers := (q, .ok a) :: world.answers }
    | (none, cache) => { world with cache, pending := world.pending ++ [q] }
  | .finish index =>
    match world.pending[index]? with
    | none => world
    | some q => ⟨world.cache.record inner q, world.pending.eraseIdx index, (q, q.answer inner) :: world.answers⟩
  | .wait time => { world with cache := world.cache.wait time }
  | .invalidate project => { world with cache := world.cache.invalidate project }
  | .clear => { world with cache := world.cache.clear }
  | .removeExpired => { world with cache := world.cache.removeExpired }
  | .forgetFiles kept =>
    { world with cache := { world.cache with files := world.cache.files.filter kept } }
  | .forgetProjects kept =>
    { world with cache := { world.cache with projects := world.cache.projects.filter kept } }

def run (inner : Checker Id) (world : World) (events : List Event) : World :=
  events.foldl (step inner) world

/-- What every order of events keeps. -/
structure Sound (world : World) (inner : Checker Id) (asked : Inquiry → Prop) : Prop where
  cache : world.cache.Sound inner asked
  pending : ∀ q ∈ world.pending, asked q
  answers : ∀ q a, (q, a) ∈ world.answers → a = q.answer inner

private theorem Sound.with_cache (sound : world.Sound inner asked) {cache : Cache} (kept : cache.Sound inner asked) :
    Sound { world with cache } inner asked :=
  ⟨kept, sound.pending, sound.answers⟩

theorem Sound.answer (sound : world.Sound inner asked) {q : Inquiry} {a : Except CheckError Answer}
    (right : a = q.answer inner) : ∀ r b, (r, b) ∈ (q, a) :: world.answers → b = r.answer inner := by
  intro r b member
  rcases List.mem_cons.mp member with same | earlier
  · obtain ⟨rfl, rfl⟩ := Prod.mk.inj same
    exact right
  · exact sound.answers r b earlier

theorem Sound.step (sound : world.Sound inner asked) (contract : Inquiry.Contract asked) {event : Event}
    (allowed : ∀ q, event.inquiry? = some q → asked q) : (world.step inner event).Sound inner asked := by
  cases event with
  | ask q =>
    have known : asked q := allowed q rfl
    have kept := sound.cache.lookUp q
    simp only [World.step]
    split
    · next a cache recalled =>
      rw [recalled] at kept
      have right := sound.cache.answer_of_lookUp contract known (congrArg Prod.fst recalled)
      exact ⟨kept, sound.pending, sound.answer right.symm⟩
    · next cache recalled =>
      rw [recalled] at kept
      refine ⟨kept, ?_, sound.answers⟩
      intro r member
      rcases List.mem_append.mp member with earlier | new
      · exact sound.pending r earlier
      · rw [List.mem_singleton.mp new]
        exact known
  | finish index =>
    simp only [World.step]
    split
    · exact sound
    · next q found =>
      have known := sound.pending q (List.mem_of_getElem? found)
      exact ⟨sound.cache.record known, fun r member => sound.pending r (List.mem_of_mem_eraseIdx member),
        sound.answer rfl⟩
  | wait time => exact sound.with_cache ⟨sound.cache.files, sound.cache.projects⟩
  | invalidate project =>
    exact sound.with_cache ⟨sound.cache.files.filter _, sound.cache.projects.filter _⟩
  | clear => exact sound.with_cache ⟨List.forall_mem_nil _, List.forall_mem_nil _⟩
  | removeExpired => exact sound.with_cache ⟨sound.cache.files.filter _, sound.cache.projects.filter _⟩
  | forgetFiles kept => exact sound.with_cache ⟨sound.cache.files.filter _, sound.cache.projects⟩
  | forgetProjects kept => exact sound.with_cache ⟨sound.cache.files, sound.cache.projects.filter _⟩

theorem Sound.run (sound : world.Sound inner asked) (contract : Inquiry.Contract asked) {events : List Event}
    (allowed : ∀ q ∈ events.filterMap Event.inquiry?, asked q) : (world.run inner events).Sound inner asked := by
  induction events generalizing world with
  | nil => exact sound
  | cons event rest ih =>
    apply ih
    · exact sound.step contract fun q first => allowed q (List.mem_filterMap.mpr ⟨event, by simp, first⟩)
    · intro q member
      obtain ⟨later, among, given⟩ := List.mem_filterMap.mp member
      exact allowed q (List.mem_filterMap.mpr ⟨later, List.mem_cons_of_mem event among, given⟩)

/-- The requests that were made so far, answered or not. -/
def inquiries (world : World) : List Inquiry :=
  world.pending ++ world.answers.map Prod.fst

private theorem inquiries_step (event : Event) :
    (world.step inner event).inquiries.Perm (event.inquiry?.toList ++ world.inquiries) := by
  cases event with
  | ask q =>
    simp only [step]
    split
    · exact List.perm_middle
    · simp only [inquiries, List.append_assoc, List.singleton_append]
      exact List.perm_middle
  | finish index =>
    simp only [step]
    split
    · exact .refl _
    · next q found =>
      obtain ⟨bound, rfl⟩ := List.getElem?_eq_some_iff.mp found
      exact List.perm_middle.trans ((List.getElem_cons_eraseIdx_perm bound).append_right _)
  | wait | invalidate | clear | removeExpired | forgetFiles | forgetProjects => exact .refl _

/-- No request is lost and none is answered twice. -/
theorem inquiries_run (events : List Event) :
    (world.run inner events).inquiries.Perm (events.filterMap Event.inquiry? ++ world.inquiries) := by
  induction events generalizing world with
  | nil => exact .refl _
  | cons event rest ih =>
    have split : (event :: rest).filterMap Event.inquiry? =
        event.inquiry?.toList ++ rest.filterMap Event.inquiry? := by
      cases asked : event.inquiry? <;> simp [asked]
    calc ((world.step inner event).run inner rest).inquiries
      _ |>.Perm (rest.filterMap Event.inquiry? ++ (world.step inner event).inquiries) := ih
      _ |>.Perm (rest.filterMap Event.inquiry? ++ (event.inquiry?.toList ++ world.inquiries)) :=
        (inquiries_step event).append_left _
      _ |>.Perm ((event :: rest).filterMap Event.inquiry? ++ world.inquiries) := by
        rw [split, ← List.append_assoc]
        exact List.perm_append_comm.append_right _

/-- A request that is not interrupted is one check, whatever else is under way. -/
theorem run_uninterrupted (cache : Cache) (answers : List (Inquiry × Except CheckError Answer)) (q : Inquiry) :
    run inner ⟨cache, [], answers⟩ [.ask q, .finish 0] =
      ⟨(cache.check inner q).2, [], (q, (cache.check inner q).1) :: answers⟩ := by
  simp only [run, List.foldl_cons, List.foldl_nil, step, Cache.check]
  cases recalled : cache.lookUp q with
  | mk known next => cases known <;> rfl

theorem sound_create (lifetime capacity : Nat) : (create lifetime capacity).Sound inner asked :=
  ⟨Cache.sound_create lifetime capacity, List.forall_mem_nil _, fun _ _ => List.not_mem_nil.elim⟩

private theorem Sound.step_ask_of_error (sound : world.Sound inner asked) (contract : Inquiry.Contract asked)
    {q : Inquiry} (known : asked q) {e : CheckError} (failed : q.answer inner = .error e) :
    world.step inner (.ask q) = { world with cache := world.cache.miss, pending := world.pending ++ [q] } := by
  simp only [World.step]
  split
  · next a cache recalled =>
    have right := sound.cache.answer_of_lookUp contract known (congrArg Prod.fst recalled)
    rw [failed] at right
    cases right
  · next cache recalled =>
    have missed := Cache.lookUp_eq_miss (congrArg Prod.fst recalled)
    rw [recalled] at missed
    rw [← missed]

private theorem step_finish_of_error {index : Nat} {q : Inquiry} (waiting : world.pending[index]? = some q)
    {e : CheckError} (failed : q.answer inner = .error e) :
    world.step inner (.finish index) =
      ⟨world.cache, world.pending.eraseIdx index, (q, .error e) :: world.answers⟩ := by
  simp only [World.step, waiting, Cache.record_of_error failed, failed]

/-- Whatever the order of requests, upkeep and time, each answer is the one of the inner checker, each
request is answered at most once and none is lost, a failure stores nothing, and a request that nothing
interrupts is a call of the remembering checker. Entries may be compared by a digest of their inputs. -/
theorem run_transparent {η : Type} [DecidableEq η] {hash : String → η} (hashed : hash.Injective)
    {number : Stamp → Nat} (numbered : number.Injective) (inner : Checker Id) (lifetime capacity : Nat)
    (events : List Event) (contract : Inquiry.Contract (· ∈ events.filterMap Event.inquiry?)) :
    let world := (create lifetime capacity).run inner events
    (∀ q a, (q, a) ∈ world.answers → a = q.answer inner) ∧
    world.inquiries.Perm (events.filterMap Event.inquiry?) ∧
    world.cache.Sound inner (· ∈ events.filterMap Event.inquiry?) ∧
    (∀ before q rest e, events = before ++ .ask q :: rest → q.answer inner = .error e →
      ((create lifetime capacity).run inner (before ++ [.ask q])).cache =
        ((create lifetime capacity).run inner before).cache.miss) ∧
    (∀ index q e, world.pending[index]? = some q → q.answer inner = .error e →
      world.step inner (.finish index) =
        ⟨world.cache, world.pending.eraseIdx index, (q, .error e) :: world.answers⟩) ∧
    (∀ cache path version text options,
      run inner ⟨cache, [], []⟩ [.ask (.file path version text options), .finish 0] =
        let checked := (cachedChecker inner).file path version text options cache
        ⟨checked.2, [], [(.file path version text options, checked.1.map .file)]⟩) ∧
    (∀ cache options, run inner ⟨cache, [], []⟩ [.ask (.project options), .finish 0] =
        let checked := (cachedChecker inner).project options cache
        ⟨checked.2, [], [(.project options, checked.1.map .project)]⟩) ∧
    ∀ (table : CacheTable FileKey FileInput FileCheck) key input now limit,
      let digest := fun input => hash (FileInput.written number input)
      CacheTable.find? (table.map (·.digested digest)) key (digest input) now limit =
        table.find? key input now limit := by
  intro world
  have sound : world.Sound inner (· ∈ events.filterMap Event.inquiry?) :=
    (sound_create lifetime capacity).run contract fun q member => member
  refine ⟨sound.answers, ?_, sound.cache, ?_, ?_, ?_, ?_, ?_⟩
  · have all : world.inquiries.Perm (events.filterMap Event.inquiry? ++ []) := inquiries_run events
    rwa [List.append_nil] at all
  · intro before q rest e parts failed
    have earlier : ((create lifetime capacity).run inner before).Sound inner
        (· ∈ events.filterMap Event.inquiry?) := by
      apply (sound_create lifetime capacity).run contract
      intro r member
      rw [parts, List.filterMap_append]
      exact List.mem_append_left _ member
    have known : q ∈ events.filterMap Event.inquiry? := by
      rw [parts]
      exact List.mem_filterMap.mpr ⟨.ask q, by simp, rfl⟩
    rw [run, List.foldl_append, List.foldl_cons, List.foldl_nil]
    exact congrArg World.cache (earlier.step_ask_of_error contract known failed)
  · intro index q e waiting failed
    exact step_finish_of_error waiting failed
  · intro cache path version text options
    rw [run_uninterrupted, Cache.check_file]
    rfl
  · intro cache options
    rw [run_uninterrupted, Cache.check_project]
    rfl
  · intro table key input now limit
    exact CacheTable.find?_digested (hashed.comp (FileInput.written_injective numbered)) table key input now limit

end World

namespace Sample

def stampNumber : Stamp → Nat
  | .given number => Nat.pair 0 number
  | .written bytes => Nat.pair 1 (Encodable.encode bytes)
  | .join own referenced => Nat.pair 2 (Nat.pair (stampNumber own) (stampNumber referenced))

private theorem stampNumber_injective : stampNumber.Injective := by
  intro stamp other same
  induction stamp generalizing other with
  | given | written => cases other <;> simp_all [stampNumber, Nat.pair_eq_pair]
  | join own referenced ihOwn ihReferenced =>
    cases other with
    | given | written => simp [stampNumber, Nat.pair_eq_pair] at same
    | join own' referenced' =>
      simp only [stampNumber, Nat.pair_eq_pair, true_and] at same
      rw [ihOwn same.1, ihReferenced same.2]

def strictChecker : Checker Id where
  file path version text options :=
    if version = 0 then .error (.sourceUnavailable path) else .ok (Check.checkFile path text options)
  project options := .ok (Check.projectCheck options)

def versionInquiry (version : Nat) : Inquiry :=
  .file (.ofText "a") version "" ⟨"P", [], [], [], .given 0⟩

/-- An older version is computed so slowly that it takes the place of the newer one, which then has to be
computed again; one request fails. -/
def slowRequest : List Event :=
  [.ask (versionInquiry 1), .ask (versionInquiry 2), .ask (versionInquiry 0), .finish 1, .wait 1, .finish 0,
    .ask (versionInquiry 2), .finish 0, .finish 0, .ask (versionInquiry 2)]

private theorem versions_contract :
    Inquiry.Contract fun q => ∃ version, q = versionInquiry version where
  options := by
    intro q r first second _ _
    obtain ⟨version, rfl⟩ := first
    obtain ⟨version', rfl⟩ := second
    rfl
  spelling := by
    intro path version text options path' version' text' options' first second _ _
    obtain ⟨n, first⟩ := first
    obtain ⟨n', second⟩ := second
    cases first
    cases second
    rfl

theorem slowRequest_transparent :
    let world := (World.create 5 1).run strictChecker slowRequest
    (∀ q a, (q, a) ∈ world.answers → a = q.answer strictChecker) ∧
      world.inquiries.Perm (slowRequest.filterMap Event.inquiry?) ∧
      world.answers.length = 5 ∧ world.pending = [] ∧ world.cache.hits = 1 := by
  have contract : Inquiry.Contract (· ∈ slowRequest.filterMap Event.inquiry?) := by
    apply versions_contract.mono
    intro q member
    simp only [slowRequest, List.filterMap_cons, Event.inquiry?, List.filterMap_nil, List.mem_cons,
      List.not_mem_nil, or_false] at member
    rcases member with rfl | rfl | rfl | rfl | rfl <;> exact ⟨_, rfl⟩
  obtain ⟨right, all, -⟩ := World.run_transparent Function.injective_id stampNumber_injective strictChecker 5 1
    slowRequest contract
  exact ⟨right, all, by decide, by decide, by decide⟩

end Sample

end CrossRef
