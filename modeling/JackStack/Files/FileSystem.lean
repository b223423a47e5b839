import JackStack.Error
import JackStack.Files.Path

/-!
# A file system as a value

Regular files and directories under one root, and a current directory from which relative paths
start. A location is the list of names from the root. Looking up, creating and removing fail the
way the operations of a file system do.
-/

namespace JackStack

/-- What stands at a location. -/
inductive Entry where
  | directory
  | file (content : ByteArray)

/-- The entry is a directory. -/
def Entry.isDirectory : Entry → Bool
  | directory => true
  | file _ => false

/-- The names from the root to a place. -/
abbrev Location := List String

/-- Files and directories. -/
structure FileSystem where
  /-- Where relative paths start. -/
  current : Location := []
  /-- What there is below the root, each location once. -/
  entries : List (Location × Entry) := []

namespace FileSystem

/-- Nothing is there. -/
def notFound : IoError := ⟨.notFound, "No such file or directory (os error 2)"⟩

/-- Something else than a directory is there. -/
def notADirectory : IoError := ⟨.notADirectory, "Not a directory (os error 20)"⟩

/-- A directory is there. -/
def isADirectory : IoError := ⟨.isADirectory, "Is a directory (os error 21)"⟩

/-- What stands at a location; the root is a directory. -/
def find? (fs : FileSystem) (place : Location) : Option Entry :=
  if place = [] then some .directory
  else (fs.entries.find? (·.1 = place)).map (·.2)

/-- Puts an entry at a location, in place of what stands there. -/
def insert (fs : FileSystem) (place : Location) (e : Entry) : FileSystem :=
  { fs with entries := fs.entries.filter (·.1 ≠ place) ++ [(place, e)] }

/-- Removes what stands at a location. -/
def erase (fs : FileSystem) (place : Location) : FileSystem :=
  { fs with entries := fs.entries.filter (·.1 ≠ place) }

@[simp] theorem find?_root (fs : FileSystem) : fs.find? [] = some .directory := rfl

/-- Dropping what stands at a place leaves the other places as they are. -/
private theorem find?_filter_of_ne (entries : List (Location × Entry)) {place other : Location}
    (h : other ≠ place) :
    (entries.filter (·.1 ≠ place)).find? (·.1 = other) = entries.find? (·.1 = other) := by
  rw [List.find?_filter]
  congr 1
  funext item
  by_cases hi : item.1 = other <;> simp [hi, h]

/-- What was put at a location stands there. -/
theorem find?_insert_self (fs : FileSystem) {place : Location} (h : place ≠ []) (e : Entry) :
    (fs.insert place e).find? place = some e := by
  have hn : (fs.entries.filter (·.1 ≠ place)).find? (·.1 = place) = none := by
    simp
  simp only [find?, if_neg h, insert, List.find?_append, hn]
  simp

/-- Putting something at a location leaves all others alone. -/
theorem find?_insert_of_ne (fs : FileSystem) {place other : Location} (h : other ≠ place)
    (e : Entry) : (fs.insert place e).find? other = fs.find? other := by
  have hs : ([(place, e)] : List (Location × Entry)).find? (·.1 = other) = none := by
    simp [Ne.symm h]
  simp only [find?, insert, List.find?_append, find?_filter_of_ne fs.entries h, hs, Option.or_none]

/-- Nothing stands where it was removed. -/
theorem find?_erase_self (fs : FileSystem) {place : Location} (h : place ≠ []) :
    (fs.erase place).find? place = none := by
  simp [find?, if_neg h, erase]

/-- Removing leaves all other locations alone. -/
theorem find?_erase_of_ne (fs : FileSystem) {place other : Location} (h : other ≠ place) :
    (fs.erase place).find? other = fs.find? other := by
  simp only [find?, erase, find?_filter_of_ne fs.entries h]

/-- Goes one segment further, which only a directory allows. -/
def enter (fs : FileSystem) (place : Location) (segment : String) : Except IoError Location :=
  match fs.find? place with
  | none => .error notFound
  | some (.file _) => .error notADirectory
  | some .directory =>
    if Path.isIdle segment then .ok place
    else if segment = ".." then .ok place.dropLast
    else .ok (place ++ [segment])

/-- The location that a path leads to, where something may stand or not. -/
def locate (fs : FileSystem) (path : String) : Except IoError Location :=
  if path = "" then .error notFound
  else
    let start := if path.toList.head? = some '/' then [] else fs.current
    (Path.segments path).foldlM fs.enter start

/-- What a path leads to. -/
def lookup (fs : FileSystem) (path : String) : Except IoError Entry := do
  let place ← fs.locate path
  match fs.find? place with
  | some e => return e
  | none => throw notFound

/-- A path leads to a directory. -/
def isDirectory (fs : FileSystem) (path : String) : Bool :=
  match fs.lookup path with
  | .ok .directory => true
  | _ => false

/-- Makes the file of a path empty, or creates it; gives its location. -/
def create (fs : FileSystem) (path : String) : Except IoError (Location × FileSystem) := do
  let place ← fs.locate path
  match fs.find? place with
  | some .directory => throw isADirectory
  | _ => return (place, fs.insert place (.file .empty))

/-- The names of the regular files directly inside a location. -/
def fileNames (fs : FileSystem) (place : Location) : List String :=
  fs.entries.filterMap fun (spot, e) =>
    match e with
    | .directory => none
    | .file _ => if spot.dropLast = place then spot.getLast? else none

/-- Adds a directory and those that lead to it, where they are missing. -/
def addDirectory (fs : FileSystem) (place : Location) : FileSystem :=
  (List.range place.length).foldl
    (fun fs n =>
      let outer := place.take (n + 1)
      if (fs.find? outer).isSome then fs else fs.insert outer .directory) fs

/-- Adds a file and the directories that lead to it. -/
def addFile (fs : FileSystem) (place : Location) (content : ByteArray) : FileSystem :=
  (fs.addDirectory place.dropLast).insert place (.file content)

/-- All entries below a location by their paths from there, in increasing order. -/
def listing (fs : FileSystem) (place : Location) : List (String × Entry) :=
  let below := fs.entries.filterMap fun (spot, e) =>
    if place.isPrefixOf spot && place ≠ spot then
      some ("/".intercalate (spot.drop place.length), e)
    else none
  below.mergeSort fun a b => a.1 ≤ b.1

end FileSystem

end JackStack
