import LexicalSelection.Job.Files

/-!
# Files in memory

A store has files in directories.  A location in it is the row of names that leads there from the
directory in which all paths begin that do not begin with a slash.

* `FileStore.locate` — the location to which a path leads.
* `FileStore.contents`, `FileStore.create?`, `FileStore.put` — files read, created and changed.
* An instance of `FileAccess`: jobs on files in memory.
-/

namespace LexicalSelection

/-- Files by their locations.  The directories are those that the files are in, and the one in which
paths begin with those above it. -/
structure FileStore where
  /-- The locations with the bytes of the files. -/
  files : List (List Text × Bytes) := []
  deriving DecidableEq, Repr

namespace FileStore

/-! ## Paths -/

/-- The name of the directory that a directory is in. -/
def above : Text := ['.', '.']

/-- The first name of a location that has been given from the top of all directories. -/
def top : Text := ['/']

/-- The most bytes that a name can have. -/
def nameLimit : Nat := 255

/-- The most bytes that a path can have. -/
def pathLimit : Nat := 4095

/-- Has a name so many bytes that no file can have it? -/
def isTooLong (name : Text) : Bool := nameLimit < name.utf8.length

/-- The location of the directory that a directory is in.  The top is in itself. -/
def parent (here : List Text) : List Text :=
  match here.getLast? with
  | none => [above]
  | some last =>
    if last = top then here else if last = above then here ++ [above] else here.dropLast

/-- Where a name leads from a directory. -/
def enter (here : List Text) (name : Text) : List Text :=
  if name = [] ∨ name = ['.'] then here
  else if name = above then parent here
  else here ++ [name]

/-- The names in a path, and the directory that they lead from. -/
def names (path : Text) : List Text × List Text :=
  match path.splitOn '/' with
  | [] :: first :: rest => ([top], first :: rest)
  | names => ([], names)

/-- The location to which a path leads when all directories on the way are there. -/
def locationOf (path : Text) : List Text :=
  let (start, names) := names path
  names.foldl enter start

/-! ## Files and directories -/

/-- The bytes of the file at a location. -/
def get? (location : List Text) (store : FileStore) : Option Bytes :=
  (store.files.find? (·.1 = location)).map Prod.snd

/-- The store with a file of these bytes at a location. -/
def put (location : List Text) (bytes : Bytes) (store : FileStore) : FileStore :=
  ⟨(location, bytes) :: store.files.filter (·.1 ≠ location)⟩

/-- Is there a directory at a location? -/
def isDirectory (location : List Text) (store : FileStore) : Bool :=
  location.all (fun name => name = above || name = top)
    || store.files.any fun (file, _) => location <+: file ∧ location ≠ file

/-- The directory at a location, or the reason why there is none. -/
def directory (location : List Text) (store : FileStore) : Except FileFault (List Text) :=
  if store.isDirectory location then .ok location
  else if (store.get? location).isSome then .error .notDirectory
  else .error .notFound

/-- The location to which names lead from a location, or the reason why they lead nowhere.  All but
the last of them are those of directories. -/
def walk (store : FileStore) : List Text → List Text → Except FileFault (List Text)
  | here, [] => .ok here
  | here, name :: rest => do
    let here ← store.directory here
    if isTooLong name then throw .nameTooLong
    walk store (enter here name) rest

/-- The names in a path that no rule on texts forbids. -/
def allowedNames (path : Text) : Except FileFault (List Text × List Text) :=
  if '\x00' ∈ path then .error .nullInPath
  else if pathLimit < path.utf8.length then .error .nameTooLong
  else .ok (names path)

/-- The location to which a path leads. -/
def locate (path : Text) (store : FileStore) : Except FileFault (List Text) := do
  let (start, names) ← allowedNames path
  store.walk start names

/-! ## Operations -/

/-- What opening a path gives.  A directory can be opened, but it has no bytes to read. -/
def contents (path : Text) (store : FileStore) : Except FileFault Contents := do
  let location ← store.locate path
  match store.get? location with
  | some bytes => return .ok bytes
  | none =>
    let _ ← store.directory location
    return .error .isDirectory

/-- The names in front of the last one, and the last one if it can be the name of a new file.  One
dot, two dots and a name with a slash behind it are for directories only. -/
def splitFileName (names : List Text) : List Text × Option Text :=
  let slashes := names.reverse.takeWhile (· = [])
  match names.reverse.dropWhile (· = []) with
  | [] => ([], none)
  | last :: before =>
    (before.reverse, if slashes ≠ [] ∨ last = ['.'] ∨ last = above then none else some last)

/-- The store with an empty file at the location to which a path leads, or the reason why there can
be none. -/
def create? (path : Text) (store : FileStore) : Except FileFault FileStore := do
  let (start, names) ← allowedNames path
  let (before, last) := splitFileName names
  let here ← store.directory (← store.walk start before)
  match last with
  | none => throw .isDirectory
  | some name =>
    if isTooLong name then throw .nameTooLong
    else if store.isDirectory (here ++ [name]) then throw .isDirectory
    else return store.put (here ++ [name]) []

/-- The store with bytes behind those of the file to which a path leads. -/
def extend (path : Text) (bytes : Bytes) (store : FileStore) : FileStore :=
  match store.locate path with
  | .ok location => store.put location ((store.get? location).getD [] ++ bytes)
  | .error _ => store

/-- The standard input and output are a file like any other. -/
instance : FileAccess (StateM FileStore) where
  openToRead place := do return (← get).contents place.text
  create place store :=
    match store.create? place.text with
    | .ok store => (.ok (), store)
    | .error fault => (.error fault, store)
  append place bytes := modify (extend place.text bytes)

end FileStore

end LexicalSelection
