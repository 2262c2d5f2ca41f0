import CrossRef.Disk.Memory
import CrossRef.Proofs.SolutionRuns

/-! Files of a disk in memory. Where paths are written as the names that lead to a file and nothing else, what is
written to a file is read there, and other files are read as before. -/

namespace CrossRef

namespace Disk

variable {τ : Type} (disk : Disk (StateM τ))

def Holds (memory : τ) (path : Path) (text : String) : Prop :=
  ((disk.readText path).run memory).1 = .ok text

/-- Paths of files that are kept apart: what is written to one of them is read there, and the others are as before. -/
structure Separates (paths : List Path) : Prop where
  written : ∀ p ∈ paths, ∀ q ∈ paths, q.Same p → ∀ text memory after,
    (disk.write p text).run memory = (.ok (), after) → disk.Holds after q text
  kept : ∀ p ∈ paths, ∀ q ∈ paths, ¬q.Same p → ∀ text memory after,
    (disk.write p text).run memory = (.ok (), after) → ∀ shown, disk.Holds memory q shown → disk.Holds after q shown

end Disk

namespace Entries

variable {entries inner : Entries} {name other : String} {names : List String} {entry : Entry}

theorem lookup_put_self : (entries.put name entry).lookup name = some entry := by
  simp [put]

private theorem lookup_put_of_ne (different : other ≠ name) :
    (entries.put name entry).lookup other = entries.lookup other := by
  rw [put, List.lookup_cons, beq_false_of_ne different]
  induction entries with
  | nil => rfl
  | cons first rest ih =>
    obtain ⟨key, held⟩ := first
    by_cases same : key = name
    · subst same
      simp only [List.filter_cons, ne_eq, not_true_eq_false, decide_false, Bool.false_eq_true, if_false,
        List.lookup_cons, beq_false_of_ne different] at ih ⊢
      exact ih
    · simp only [List.filter_cons, ne_eq, same, not_false_eq_true, decide_true, if_true, List.lookup_cons] at ih ⊢
      rw [ih]

private theorem getAt?_singleton : entries.getAt? [name] = entries.lookup name := by
  simp [getAt?]

theorem getAt?_cons (found : entries.lookup name = some (.directory inner)) (names : List String) :
    entries.getAt? (name :: names) = getAt? inner names := by
  cases names with
  | nil => simp [getAt?, found]
  | cons next rest => simp [getAt?, found]

private theorem directory_of_getAt? (filled : names ≠ []) (found : entries.getAt? (name :: names) = some entry) :
    ∃ inner, entries.lookup name = some (.directory inner) ∧ getAt? inner names = some entry := by
  cases names with
  | nil => exact absurd rfl filled
  | cons next rest =>
    cases held : entries.lookup name with
    | none => simp [getAt?, held] at found
    | some holder =>
      cases holder with
      | file content => simp [getAt?, held] at found
      | directory inner => exact ⟨inner, rfl, by rwa [getAt?_cons held] at found⟩

private theorem getAt?_congr {others : Entries} (same : entries.lookup name = others.lookup name) :
    entries.getAt? (name :: names) = others.getAt? (name :: names) := by
  cases names with
  | nil => rw [getAt?_singleton, getAt?_singleton, same]
  | cons next rest => simp only [getAt?, same]

theorem putAt_cons (found : entries.lookup name = some (.directory inner)) (filled : names ≠ []) :
    entries.putAt entry (name :: names) = entries.put name (.directory (putAt inner entry names)) := by
  cases names with
  | nil => exact absurd rfl filled
  | cons next rest => simp [putAt, found]

theorem getAt?_putAt_self (filled : names ≠ []) : (entries.putAt entry names).getAt? names = some entry := by
  induction names generalizing entries with
  | nil => exact absurd rfl filled
  | cons name rest ih =>
    cases rest with
    | nil => rw [putAt, getAt?_singleton, lookup_put_self]
    | cons next rest =>
      rw [putAt, getAt?_cons lookup_put_self]
      · exact ih (by simp)
      · simp

variable {front query : List String} {last : String} {content shown : ByteArray}

/-- A file that is put where there is none or another file leaves the other files alone. -/
theorem getAt?_putAt_other (leads : entries.getAt? front = some (.directory inner))
    (free : ∀ below, inner.lookup last ≠ some (.directory below)) (different : query ≠ front ++ [last])
    (found : entries.getAt? query = some (.file shown)) :
    (entries.putAt (.file content) (front ++ [last])).getAt? query = some (.file shown) := by
  cases query with
  | nil => simp [getAt?] at found
  | cons first rest =>
    induction front generalizing entries first rest with
    | nil =>
      obtain rfl : entries = inner := by simpa [getAt?] using leads
      have other : first ≠ last := by
        intro same
        subst same
        cases rest with
        | nil => exact different rfl
        | cons next rest =>
          obtain ⟨below, absurd, -⟩ := directory_of_getAt? (by simp) found
          exact free below absurd
      rw [List.nil_append, putAt, getAt?_congr (lookup_put_of_ne other), found]
    | cons name front ih =>
      obtain ⟨middle, held, onward⟩ : ∃ middle, entries.lookup name = some (.directory middle) ∧
          getAt? middle front = some (.directory inner) := by
        cases front with
        | nil => exact ⟨inner, by rwa [getAt?_singleton] at leads, rfl⟩
        | cons next front => exact directory_of_getAt? (by simp) leads
      rw [List.cons_append, putAt_cons held (by simp)]
      by_cases same : first = name
      · subst same
        rw [getAt?_cons lookup_put_self]
        rw [getAt?_cons held] at found
        cases rest with
        | nil => simp [getAt?] at found
        | cons next rest => exact ih onward next rest (by simpa using different) found
      · rw [getAt?_congr (lookup_put_of_ne same), found]

end Entries

def IsEntryName (name : String) : Prop :=
  Component.ofPiece? name.toList = some (.name name)

/-- An absolute path that consists of the names that lead to what it stands for. -/
structure Path.Leads (path : Path) (names : List String) : Prop where
  pieces : Text.split '/' path.text.toList = [] :: names.map String.toList
  filled : names ≠ []
  plain : ∀ name ∈ names, IsEntryName name

namespace Path.Leads

variable {p q : Path} {names others : List String}

theorem components (leads : p.Leads names) : p.components = .root :: names.map .name := by
  have behind : (names.map String.toList).filterMap Component.ofPiece? = names.map .name := by
    rw [List.filterMap_map, ← List.filterMap_eq_map]
    exact List.filterMap_congr leads.plain
  rw [p.components_eq, Component.ofText, leads.pieces]
  simp [behind, leads.filled]

theorem names_eq (leads : p.Leads names) (leads' : q.Leads others) (same : p.Same q) : names = others := by
  have equal : p.components = q.components := same
  rw [leads.components, leads'.components] at equal
  exact List.map_injective_iff.mpr (fun _ _ => Component.name.inj) (List.cons.inj equal).2

private theorem path_eq (leads : p.Leads names) (leads' : q.Leads names) : p = q := by
  apply Path.ext_text
  apply String.toList_injective
  rw [← Text.intercalate_split '/' p.text.toList, leads.pieces, ← leads'.pieces, Text.intercalate_split]

theorem route (leads : p.Leads names) (workingDirectory : Path) :
    Memory.route workingDirectory p = names.map String.toList := by
  have absolute : p.isAbsolute = true := by
    rw [isAbsolute, leads.components]
    rfl
  rw [Memory.route, if_pos absolute, leads.pieces, List.tail_cons]

end Path.Leads

namespace Memory

variable {names : List String} {name : String} {spot next : Spot} {entries : Entries}

private theorem follow_eq_ok (plain : IsEntryName name) (success : spot.follow name.toList = .ok next) :
    ∃ entries, spot.entry = .directory entries ∧ entries.lookup name = some next.entry ∧
      next.names = spot.names ++ [name] ∧ Text.size name.toList ≤ Spot.nameLimit := by
  unfold Spot.follow at success
  rw [plain] at success
  split at success
  · cases success
  · rename_i entries here
    simp only at success
    split at success
    · cases success
    · rename_i short
      split at success
      · rename_i entry held
        cases success
        exact ⟨entries, here, held, by simp [Spot.names], by omega⟩
      · cases success

private theorem follow_of_lookup (plain : IsEntryName name) (here : spot.entry = .directory entries)
    (short : Text.size name.toList ≤ Spot.nameLimit) {entry : Entry} (held : entries.lookup name = some entry) :
    spot.follow name.toList = .ok ⟨entry, (name, entries) :: spot.above⟩ := by
  unfold Spot.follow
  rw [plain, here]
  simp only [held]
  rw [if_neg (by omega)]

private theorem follow_eq_notFound (plain : IsEntryName name) (failure : spot.follow name.toList = .error .notFound) :
    ∃ entries, spot.entry = .directory entries ∧ entries.lookup name = none ∧
      Text.size name.toList ≤ Spot.nameLimit := by
  unfold Spot.follow at failure
  rw [plain] at failure
  split at failure
  · cases failure
  · rename_i entries here
    simp only at failure
    split at failure
    · cases failure
    · rename_i short
      split at failure
      · cases failure
      · rename_i missing
        exact ⟨entries, here, missing, by omega⟩

private theorem followAll_eq_ok (plain : ∀ name ∈ names, IsEntryName name) (here : spot.entry = .directory entries)
    (success : (names.map String.toList).foldlM Spot.follow spot = .ok next) :
    entries.getAt? names = some next.entry ∧ next.names = spot.names ++ names ∧
      ∀ name ∈ names, Text.size name.toList ≤ Spot.nameLimit := by
  induction names generalizing spot entries with
  | nil =>
    cases success
    exact ⟨by rw [here, Entries.getAt?], by simp, by simp⟩
  | cons name rest ih =>
    obtain ⟨first, plain⟩ := List.forall_mem_cons.mp plain
    rw [List.map_cons, List.foldlM_cons] at success
    obtain ⟨middle, step, success⟩ := bind_eq_ok success
    obtain ⟨known, same, held, names, short⟩ := follow_eq_ok first step
    obtain rfl := Entry.directory.inj (here.symm.trans same)
    cases inside : middle.entry with
    | directory inner =>
      obtain ⟨found, total, shorts⟩ := ih plain inside success
      rw [inside] at held
      refine ⟨by rw [Entries.getAt?_cons held, found], ?_, List.forall_mem_cons.mpr ⟨short, shorts⟩⟩
      rw [total, names, List.append_assoc, List.singleton_append]
    | file content =>
      cases rest with
      | nil =>
        cases success
        exact ⟨by rw [Entries.getAt?_singleton, held], names, by simpa using short⟩
      | cons after rest =>
        rw [List.map_cons, List.foldlM_cons] at success
        obtain ⟨_, step, -⟩ := bind_eq_ok success
        obtain ⟨_, absurd, -⟩ := follow_eq_ok (plain after List.mem_cons_self) step
        cases inside.symm.trans absurd

private theorem exists_followAll (plain : ∀ name ∈ names, IsEntryName name)
    (short : ∀ name ∈ names, Text.size name.toList ≤ Spot.nameLimit) (here : spot.entry = .directory entries)
    {entry : Entry} (found : entries.getAt? names = some entry) :
    ∃ last, (names.map String.toList).foldlM Spot.follow spot = .ok last ∧ last.entry = entry := by
  induction names generalizing spot entries with
  | nil => exact ⟨spot, rfl, by simpa [Entries.getAt?, here] using found⟩
  | cons name rest ih =>
    obtain ⟨first, plain⟩ := List.forall_mem_cons.mp plain
    obtain ⟨little, short⟩ := List.forall_mem_cons.mp short
    rw [List.map_cons, List.foldlM_cons]
    cases rest with
    | nil =>
      rw [Entries.getAt?_singleton] at found
      exact ⟨_, by rw [follow_of_lookup first here little found]; rfl, rfl⟩
    | cons after rest =>
      obtain ⟨inner, held, below⟩ := Entries.directory_of_getAt? (by simp) found
      rw [follow_of_lookup first here little held]
      exact ih plain short rfl below

variable {memory : Memory} {content : ByteArray}

theorem read_eq_ok_iff (plain : ∀ name ∈ names, IsEntryName name) :
    memory.read (names.map String.toList) = .ok content ↔
      (∀ name ∈ names, Text.size name.toList ≤ Spot.nameLimit) ∧ memory.entry? names = some (.file content) := by
  constructor
  · intro success
    obtain ⟨last, found, shown⟩ := bind_eq_ok success
    obtain ⟨held, -, short⟩ := followAll_eq_ok plain rfl found
    refine ⟨short, held.trans ?_⟩
    split at shown
    · rename_i here
      cases shown
      rw [here]
    · cases shown
  · intro ⟨short, held⟩
    obtain ⟨last, found, shown⟩ : ∃ last, memory.follow (names.map String.toList) = .ok last ∧
      last.entry = .file content := exists_followAll plain short rfl held
    rw [read, found]
    simp only [bind, Except.bind, shown]

variable {front : List String} {last : String} {after : Memory}

private theorem followFront_eq_ok (plain : ∀ name ∈ front, IsEntryName name) {piece : List Char}
    (success : memory.followFront ((front ++ [last]).map String.toList) = .ok (spot, piece)) :
    piece = last.toList ∧ memory.entry? front = some spot.entry ∧ spot.names = front ∧
      ∀ name ∈ front, Text.size name.toList ≤ Spot.nameLimit := by
  have reversed : ((front ++ [last]).map String.toList).reverse =
      last.toList :: (front.map String.toList).reverse := by simp
  rw [followFront, reversed] at success
  obtain ⟨place, found, success⟩ := bind_eq_ok success
  rw [List.reverse_reverse] at found
  split at success
  · cases success
    obtain ⟨held, names, short⟩ := followAll_eq_ok plain rfl found
    exact ⟨rfl, held, names, short⟩
  · cases success

private theorem write_eq_ok (plain : ∀ name ∈ front ++ [last], IsEntryName name)
    (success : memory.write ((front ++ [last]).map String.toList) content = .ok after) :
    after = memory.put (front ++ [last]) (.file content) ∧
      (∀ name ∈ front ++ [last], Text.size name.toList ≤ Spot.nameLimit) ∧
      ∃ inner, memory.entry? front = some (.directory inner) ∧
        ∀ below, inner.lookup last ≠ some (.directory below) := by
  obtain ⟨⟨spot, piece⟩, led, success⟩ := bind_eq_ok success
  obtain ⟨rfl, held, names, short⟩ :=
    followFront_eq_ok (fun name member => plain name (List.mem_append_left _ member)) led
  have last_plain : IsEntryName last := plain last (by simp)
  have all (little : Text.size last.toList ≤ Spot.nameLimit) :
      ∀ name ∈ front ++ [last], Text.size name.toList ≤ Spot.nameLimit :=
    List.forall_mem_append.mpr ⟨short, List.forall_mem_singleton.mpr little⟩
  simp only at success
  split at success
  · rename_i target reached
    obtain ⟨inner, here, known, path, little⟩ := follow_eq_ok last_plain reached
    split at success
    · cases success
    · rename_i file
      cases success
      refine ⟨by rw [path, names], all little, inner, here ▸ held, ?_⟩
      intro below absurd
      have same := Option.some.inj (known.symm.trans absurd)
      simp [Spot.isDirectory, same] at file
  · rename_i missing
    obtain ⟨inner, here, unknown, little⟩ := follow_eq_notFound last_plain missing
    cases success
    refine ⟨by rw [names, String.ofList_toList], all little, inner, here ▸ held, ?_⟩
    intro below absurd
    cases unknown.symm.trans absurd
  · cases success

theorem read_write_self (plain : ∀ name ∈ front ++ [last], IsEntryName name)
    (success : memory.write ((front ++ [last]).map String.toList) content = .ok after) :
    after.read ((front ++ [last]).map String.toList) = .ok content := by
  obtain ⟨rfl, short, -⟩ := write_eq_ok plain success
  exact (read_eq_ok_iff plain).mpr ⟨short, Entries.getAt?_putAt_self (by simp)⟩

private theorem read_write_other (plain : ∀ name ∈ front ++ [last], IsEntryName name)
    (readable : ∀ name ∈ names, IsEntryName name) (different : names ≠ front ++ [last])
    (success : memory.write ((front ++ [last]).map String.toList) content = .ok after) {shown : ByteArray}
    (before : memory.read (names.map String.toList) = .ok shown) :
    after.read (names.map String.toList) = .ok shown := by
  obtain ⟨rfl, -, inner, leads, free⟩ := write_eq_ok plain success
  obtain ⟨short, held⟩ := (read_eq_ok_iff readable).mp before
  exact (read_eq_ok_iff readable).mpr ⟨short, Entries.getAt?_putAt_other leads free different held⟩

variable {workingDirectory path : Path} {text : String}

private theorem shortRouteOf_eq_ok (leads : path.Leads names) {found : Route}
    (success : shortRouteOf workingDirectory path = .ok found) : found = names.map String.toList := by
  obtain ⟨whole, known, success⟩ := bind_eq_ok success
  split at success
  · cases success
    unfold routeOf at known
    split at known
    · cases known
    · split at known
      · cases known
      · cases known
        exact leads.route workingDirectory
  · cases success

theorem holds_iff (leads : path.Leads names) :
    (disk workingDirectory).Holds memory path text ↔
      shortRouteOf workingDirectory path = .ok (names.map String.toList) ∧
      ∃ bytes, memory.read (names.map String.toList) = .ok bytes ∧ String.fromUTF8? bytes = some text := by
  have reads : ((disk workingDirectory).read path).run memory =
      (shortRouteOf workingDirectory path >>= memory.read, memory) := rfl
  rw [Disk.Holds, Disk.readText, StateT.run_bind, reads]
  constructor
  · intro shown
    cases outcome : shortRouteOf workingDirectory path >>= memory.read with
    | error e =>
      rw [outcome] at shown
      cases shown
    | ok bytes =>
      obtain ⟨found, known, read⟩ := bind_eq_ok outcome
      obtain rfl := shortRouteOf_eq_ok leads known
      refine ⟨known, bytes, read, ?_⟩
      rw [outcome] at shown
      cases decoded : String.fromUTF8? bytes with
      | none =>
        simp only [bind, pure, decoded] at shown
        cases shown
      | some text =>
        simp only [bind, pure, decoded] at shown
        cases shown
        rfl
  · intro ⟨known, bytes, found, decoded⟩
    have outcome : (shortRouteOf workingDirectory path >>= memory.read) = .ok bytes := by rw [known]; exact found
    rw [outcome]
    simp only [bind, pure, decoded]
    rfl

theorem change_eq_ok {f : Memory → Except DiskError Memory} (success : (change f).run memory = (.ok (), after)) :
    f memory = .ok after := by
  rw [change, StateT.run_bind] at success
  simp only [bind, StateT.run_get, pure] at success
  cases outcome : f memory with
  | error e =>
    rw [outcome] at success
    cases success
  | ok changed =>
    rw [outcome] at success
    cases success
    rfl

private theorem write_run_eq_ok (leads : path.Leads names)
    (success : ((disk workingDirectory).write path text).run memory = (.ok (), after)) :
    shortRouteOf workingDirectory path = .ok (names.map String.toList) ∧
      memory.write (names.map String.toList) text.toUTF8 = .ok after := by
  obtain ⟨found, known, write⟩ := bind_eq_ok (change_eq_ok success)
  obtain rfl := shortRouteOf_eq_ok leads known
  exact ⟨known, write⟩

/-- A disk in memory keeps files apart whose paths are the names that lead to them. -/
theorem disk_separates {paths : List Path} (plain : ∀ p ∈ paths, ∃ names, p.Leads names) :
    (disk workingDirectory).Separates paths := by
  constructor
  · intro p listed q asked same text memory after success
    obtain ⟨names, leads⟩ := plain p listed
    obtain ⟨others, leads'⟩ := plain q asked
    obtain rfl := leads'.names_eq leads same
    obtain rfl := leads'.path_eq leads
    obtain ⟨known, write⟩ := write_run_eq_ok leads success
    obtain ⟨front, last, rfl⟩ := (List.eq_nil_or_concat' others).resolve_left leads.filled
    have decoded : String.fromUTF8? text.toUTF8 = some text := dif_pos text.isValidUTF8
    exact (holds_iff leads).mpr ⟨known, _, read_write_self leads.plain write, decoded⟩
  · intro p listed q asked different text memory after success shown before
    obtain ⟨names, leads⟩ := plain p listed
    obtain ⟨others, leads'⟩ := plain q asked
    obtain ⟨-, write⟩ := write_run_eq_ok leads success
    obtain ⟨known, bytes, read, decoded⟩ := (holds_iff leads').mp before
    have elsewhere : others ≠ names := by
      intro same
      subst same
      exact different (leads'.path_eq leads ▸ .refl _)
    obtain ⟨front, last, rfl⟩ := (List.eq_nil_or_concat' names).resolve_left leads.filled
    exact (holds_iff leads').mpr
      ⟨known, bytes, read_write_other leads.plain leads'.plain elsewhere write read, decoded⟩

end Memory

end CrossRef
