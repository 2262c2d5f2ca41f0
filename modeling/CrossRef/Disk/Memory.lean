import CrossRef.Disk
import CrossRef.Text.Bytes

/-! A disk in memory: a tree of directories and files. Paths are followed from directory to directory, as
they are written. -/

namespace CrossRef

inductive Entry where
  | file (content : ByteArray)
  | directory (entries : List (String × Entry))
deriving Inhabited

/-- What a directory holds, by name. -/
abbrev Entries := List (String × Entry)

namespace Entries

/-- Replaces what a name stands for, or adds it. -/
def put (entries : Entries) (name : String) (entry : Entry) : Entries :=
  (name, entry) :: entries.filter (·.1 ≠ name)

/-- Replaces or adds what a list of names leads to. What is in the way of a directory gives place to it. -/
def putAt (entries : Entries) (entry : Entry) : List String → Entries
  | [] => entries
  | [name] => entries.put name entry
  | name :: names =>
    let inner := match entries.lookup name with
      | some (.directory inner) => inner
      | _ => []
    entries.put name (.directory (putAt inner entry names))

/-- What a list of names leads to. -/
def getAt? (entries : Entries) : List String → Option Entry
  | [] => some (.directory entries)
  | name :: names =>
    match names, entries.lookup name with
    | [], found => found
    | _, some (.directory inner) => getAt? inner names
    | _, _ => none

end Entries

mutual

/-- The files in something, each by the names that lead to it. Names that are not wanted are left out. -/
def Entry.files (isWanted : String → Bool) : Entry → List (List String × ByteArray)
  | .file content => [([], content)]
  | .directory entries => filesOf isWanted entries

def filesOf (isWanted : String → Bool) : List (String × Entry) → List (List String × ByteArray)
  | [] => []
  | (name, entry) :: rest =>
    (if isWanted name then (entry.files isWanted).map fun (names, content) => (name :: names, content)
     else []) ++ filesOf isWanted rest

end

/-- The entries of the root directory. -/
structure Memory where
  root : Entries

namespace Memory

def empty : Memory := ⟨[]⟩

def entry? (disk : Memory) (names : List String) : Option Entry :=
  disk.root.getAt? names

def put (disk : Memory) (names : List String) (entry : Entry) : Memory :=
  ⟨disk.root.putAt entry names⟩

/-- All files, each by the names that lead to it. -/
def files (disk : Memory) : List (List String × ByteArray) :=
  filesOf (fun _ => true) disk.root

/-- Something on the disk: what it is, and the directories above it, the innermost first, each with the
name that leads on. -/
structure Spot where
  entry : Entry
  above : List (String × Entries)

namespace Spot

def names (spot : Spot) : List String :=
  (spot.above.map (·.1)).reverse

def isDirectory (spot : Spot) : Bool :=
  match spot.entry with
  | .file _ => false
  | .directory _ => true

/-- Names are at most this long. -/
def nameLimit : Nat := 255

/-- Follows one piece of a path. It needs a directory, even if it names nothing. -/
def follow (spot : Spot) (piece : List Char) : Except DiskError Spot :=
  match spot.entry with
  | .file _ => .error .notDirectory
  | .directory entries =>
    match Component.ofPiece? piece with
    | some .parent =>
      match spot.above with
      | [] => .ok spot
      | (_, outer) :: above => .ok ⟨.directory outer, above⟩
    | some (.name name) =>
      if Text.size piece > nameLimit then .error .nameTooLong
      else
        match entries.lookup name with
        | some entry => .ok ⟨entry, (name, entries) :: spot.above⟩
        | none => .error .notFound
    | _ => .ok spot

end Spot

/-- The pieces between the separators of an absolute path, behind the first of them. -/
abbrev Route := List (List Char)

/-- How to get to a path from the root. -/
def route (workingDirectory path : Path) : Route :=
  let pieces := Text.split '/' path.text.toList
  if path.isAbsolute then pieces.tail
  else (Text.split '/' workingDirectory.text.toList).tail ++ pieces

/-- What a route leads to. -/
def follow (disk : Memory) (route : Route) : Except DiskError Spot :=
  route.foldlM Spot.follow ⟨.directory disk.root, []⟩

def pathOf (names : List String) : Path :=
  .ofText ("/" ++ "/".intercalate names)

def read (disk : Memory) (route : Route) : Except DiskError ByteArray := do
  match (← disk.follow route).entry with
  | .file content => .ok content
  | .directory _ => .error .isDirectory

/-- What a directory takes. -/
def directorySize : Nat := 4096

def size (disk : Memory) (route : Route) : Except DiskError Nat := do
  match (← disk.follow route).entry with
  | .file content => .ok content.size
  | .directory _ => .ok directorySize

def filesBelow (disk : Memory) (isWanted : String → Bool) (route : Route) : List (List String) :=
  match disk.follow route with
  | .error _ => []
  | .ok spot => (spot.entry.files isWanted).map (·.1)

/-- The directory that a route leads to but for its last piece, and that piece. -/
def followFront (disk : Memory) (route : Route) : Except DiskError (Spot × List Char) := do
  match route.reverse with
  | [] => .ok (⟨.directory disk.root, []⟩, [])
  | last :: front =>
    let spot ← disk.follow front.reverse
    if spot.isDirectory then .ok (spot, last) else .error .notDirectory

/-- Gives a file a content, and makes it if it is missing. -/
def write (disk : Memory) (route : Route) (content : ByteArray) : Except DiskError Memory := do
  let (spot, last) ← disk.followFront route
  match spot.follow last with
  | .ok found =>
    if found.isDirectory then .error .isDirectory
    else .ok (disk.put found.names (.file content))
  | .error .notFound => .ok (disk.put (spot.names ++ [String.ofList last]) (.file content))
  | .error e => .error e

/-- Makes one directory. Nothing may be there yet. Separators at the end of the route do not count. -/
def makeOne (disk : Memory) (route : Route) : Except DiskError Memory := do
  let (spot, last) ← disk.followFront (route.reverse.dropWhile (· = [])).reverse
  match spot.follow last with
  | .ok _ => .error .alreadyExists
  | .error .notFound => .ok (disk.put (spot.names ++ [String.ofList last]) (.directory []))
  | .error e => .error e

/-- The route of a path that an operation is given, which must not be empty or hold a zero. -/
def routeOf (workingDirectory path : Path) : Except DiskError Route :=
  if path.text.toList.contains '\x00' then .error .zeroInName
  else if path.text = "" then .error .notFound
  else .ok (route workingDirectory path)

/-- Paths are shorter than this. -/
def pathLimit : Nat := 4096

/-- The route of a path that must not be too long either. -/
def shortRouteOf (workingDirectory path : Path) : Except DiskError Route := do
  let route ← routeOf workingDirectory path
  if path.text.utf8ByteSize < pathLimit then .ok route else .error .nameTooLong

/-- The one spelling of a path. The path may be of any length. -/
def canonical (disk : Memory) (workingDirectory path : Path) : Except DiskError Path := do
  let spot ← disk.follow (← routeOf workingDirectory path)
  return pathOf spot.names

def isDirectory (disk : Memory) (workingDirectory path : Path) : Bool :=
  match shortRouteOf workingDirectory path >>= disk.follow with
  | .ok spot => spot.isDirectory
  | .error _ => false

/-- Keeps the changed memory, if a change is possible. -/
def change (f : Memory → Except DiskError Memory) : StateM Memory (Except DiskError Unit) := do
  match f (← get) with
  | .ok disk =>
    set disk
    return .ok ()
  | .error e => return .error e

/-- Makes one directory, unless there is one. -/
def ensureOne (workingDirectory path : Path) : StateM Memory (Except DiskError Unit) := do
  match ← change fun disk => shortRouteOf workingDirectory path >>= disk.makeOne with
  | .ok () => return .ok ()
  | .error e =>
    if e ≠ .notFound ∧ (← get).isDirectory workingDirectory path then return .ok () else return .error e

/-- A path and what lies above it, the path itself first. At most `count` steps are taken. -/
def withAbove : (count : Nat) → Path → List Path
  | 0, path => [path]
  | count + 1, path => path :: (path.parent?.elim [] (withAbove count))

/-- Makes the first of some directories; if something above it is missing, the others are made before. -/
def ensureAll (workingDirectory : Path) : List Path → StateM Memory (Except DiskError Unit)
  | [] => return .error .notFound
  | path :: above => do
    if path.components = [] then
      return .ok ()
    match ← ensureOne workingDirectory path with
    | .ok () => return .ok ()
    | .error .notFound =>
      match ← ensureAll workingDirectory above with
      | .ok () => ensureOne workingDirectory path
      | .error e => return .error e
    | .error e => return .error e

/-- The operations on a disk in memory, with the given working directory. -/
def disk (workingDirectory : Path) : Disk (StateM Memory) where
  workingDirectory
  canonical path := do
    return (← get).canonical workingDirectory path
  read path := do
    return shortRouteOf workingDirectory path >>= (← get).read
  size path := do
    return shortRouteOf workingDirectory path >>= (← get).size
  isPresent path := do
    return (shortRouteOf workingDirectory path >>= (← get).follow).toOption.isSome
  filesBelow isWanted path := do
    return (← get).filesBelow isWanted (route workingDirectory path)
  write path text := change fun disk => do
    disk.write (← shortRouteOf workingDirectory path) text.toUTF8
  makeDirectory path := ensureAll workingDirectory (withAbove path.components.length path)

end Memory

end CrossRef
