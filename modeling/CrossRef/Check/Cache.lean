import CrossRef.Check.Checker
import CrossRef.Text.Fraction

/-! A checker that remembers what it has answered. Files are remembered by project and path, projects by
their id; an answer is given again only if the inputs are the same and the entry is not too old. When a
table is full, the entry whose last use is longest ago makes room. -/

namespace CrossRef

/-- A remembered answer. -/
structure CacheEntry (κ ι α : Type) where
  key : κ
  /-- All that the answer depends on. -/
  input : ι
  value : α
  created : Nat
deriving Repr

/-- Remembered answers, the most recently used first, with at most one for each key. -/
abbrev CacheTable (κ ι α : Type) := List (CacheEntry κ ι α)

namespace CacheTable

variable {κ ι α : Type} [DecidableEq κ] [DecidableEq ι]

/-- The answer for a key, if it was given for this input, less than `lifetime` ago. -/
def find? (table : CacheTable κ ι α) (key : κ) (input : ι) (now lifetime : Nat) : Option α := do
  let entry ← List.find? (·.key = key) table
  if entry.input = input ∧ now - entry.created < lifetime then some entry.value else none

def hasKey (table : CacheTable κ ι α) (key : κ) : Bool :=
  table.any (·.key = key)

/-- Makes an entry the most recently used one. -/
def touch (table : CacheTable κ ι α) (key : κ) : CacheTable κ ι α :=
  table.filter (·.key = key) ++ table.filter (·.key ≠ key)

/-- Puts an entry in front, in place of the one with its key or, in a full table, of the last one. -/
def insert (table : CacheTable κ ι α) (capacity : Nat) (entry : CacheEntry κ ι α) : CacheTable κ ι α :=
  if table.hasKey entry.key then entry :: table.filter (·.key ≠ entry.key)
  else if capacity ≤ table.length then entry :: table.dropLast
  else entry :: table

end CacheTable

/-- A file of a project. Two spellings of a path are one key. -/
abbrev FileKey := ProjectId × List Component

/-- What the check of a file depends on: its version and text, and the stamp of its project. -/
abbrev FileInput := Nat × Stamp × String

structure Cache where
  /-- How long an answer can be used. -/
  lifetime : Nat
  /-- The most entries that each table holds. -/
  capacity : Nat
  clock : Nat
  files : CacheTable FileKey FileInput FileCheck
  projects : CacheTable ProjectId Stamp ProjectCheck
  hits : Nat
  misses : Nat

namespace Cache

/-- An empty cache. It holds at least one entry. -/
def create (lifetime capacity : Nat) : Cache :=
  ⟨lifetime, max 1 capacity, 0, [], [], 0, 0⟩

/-- Lets time pass. -/
def wait (cache : Cache) (time : Nat) : Cache :=
  { cache with clock := cache.clock + time }

/-- Forgets what is known of a project. -/
def invalidate (cache : Cache) (project : ProjectId) : Cache :=
  { cache with
    files := cache.files.filter (·.key.1 ≠ project)
    projects := cache.projects.filter (·.key ≠ project) }

/-- Forgets everything, the counts included. -/
def clear (cache : Cache) : Cache :=
  { cache with files := [], projects := [], hits := 0, misses := 0 }

/-- Drops the entries that are too old. -/
def removeExpired (cache : Cache) : Cache :=
  { cache with
    files := cache.files.filter fun entry => cache.clock - entry.created < cache.lifetime
    projects := cache.projects.filter fun entry => cache.clock - entry.created < cache.lifetime }

/-- The number of entries. -/
def size (cache : Cache) : Nat :=
  cache.files.length + cache.projects.length

/-- The answer for a file, if it is known. -/
def lookupFile? (cache : Cache) (key : FileKey) (input : FileInput) : Option FileCheck :=
  cache.files.find? key input cache.clock cache.lifetime

def lookupProject? (cache : Cache) (key : ProjectId) (input : Stamp) : Option ProjectCheck :=
  cache.projects.find? key input cache.clock cache.lifetime

/-- Records an answer for a file. -/
def storeFile (cache : Cache) (key : FileKey) (input : FileInput) (value : FileCheck) : Cache :=
  { cache with files := cache.files.insert cache.capacity ⟨key, input, value, cache.clock⟩ }

def storeProject (cache : Cache) (key : ProjectId) (input : Stamp) (value : ProjectCheck) : Cache :=
  { cache with projects := cache.projects.insert cache.capacity ⟨key, input, value, cache.clock⟩ }

/-- Counts an answer that was known and makes its entry the most recent one. -/
def hitFile (cache : Cache) (key : FileKey) : Cache :=
  { cache with files := cache.files.touch key, hits := cache.hits + 1 }

def hitProject (cache : Cache) (key : ProjectId) : Cache :=
  { cache with projects := cache.projects.touch key, hits := cache.hits + 1 }

/-- Counts an answer that had to be computed. -/
def miss (cache : Cache) : Cache :=
  { cache with misses := cache.misses + 1 }

/-- Checks a file, or gives the remembered answer. A failure is not remembered. -/
def checkFile (inner : Checker Id) (path : Path) (version : Nat) (text : String) (options : Options)
    (cache : Cache) : Except CheckError FileCheck × Cache :=
  let key := (options.project, path.components)
  let input := (version, options.stamp, text)
  match cache.lookupFile? key input with
  | some check => (.ok check, cache.hitFile key)
  | none =>
    match (inner.file path version text options).run with
    | .error e => (.error e, cache.miss)
    | .ok check => (.ok check, cache.miss.storeFile key input check)

/-- Checks a project, or gives the remembered answer. A failure is not remembered. -/
def checkProject (inner : Checker Id) (options : Options) (cache : Cache) :
    Except CheckError ProjectCheck × Cache :=
  match cache.lookupProject? options.project options.stamp with
  | some check => (.ok check, cache.hitProject options.project)
  | none =>
    match (inner.project options).run with
    | .error e => (.error e, cache.miss)
    | .ok check => (.ok check, cache.miss.storeProject options.project options.stamp check)

/-- The share of answers that were known, written with six decimals. -/
def hitRate (cache : Cache) : String :=
  (BinaryFraction.nearest cache.hits (cache.hits + cache.misses)).text

end Cache

/-- A checker that remembers the answers of another one. -/
def cachedChecker (inner : Checker Id) : Checker (StateM Cache) where
  file path version text options := fun cache => Cache.checkFile inner path version text options cache
  project options := fun cache => Cache.checkProject inner options cache

end CrossRef
