import SchemaDocs.Files.Directories
import SchemaDocs.Files.Disk

/-!
# Files in memory

A model of a file system: directories and files by location, and a working directory. Paths are
followed name by name, so a name after a file, a missing name and an overlong name are told apart
in the order in which they are met. There are no links, so every location holds a file of its own,
and no permissions; and what was made can always be written.
-/

namespace SchemaDocs

/-- The names from the root of the file system to a file or directory. -/
abbrev Location := List String

inductive Node where
  | directory
  | file (content : ByteArray)

/-- What stands where. The root is always a directory. -/
structure Memory where
  nodes : List (Location × Node)
  /-- The working directory, where relative paths start. -/
  home : Location

namespace Memory

/-- The greatest length of a name, in bytes. -/
def maxName : Nat := 255

/-- The least length of a path that is too long, in bytes. -/
def pathBound : Nat := 4096

def empty : Memory := ⟨[(["home"], .directory)], ["home"]⟩

def get? (m : Memory) (l : Location) : Option Node :=
  if l = [] then some .directory else m.nodes.lookup l

def isDirectoryAt (m : Memory) (l : Location) : Bool :=
  match m.get? l with
  | some .directory => true
  | _ => false

def put (m : Memory) (l : Location) (n : Node) : Memory :=
  { m with nodes := (l, n) :: m.nodes.filter (·.1 != l) }

/-- Follows one name. -/
def step (m : Memory) (l : Location) (name : String) : Except FileError Location :=
  if !m.isDirectoryAt l then .error .notADirectory
  else if name = "." then .ok l
  else if name = ".." then .ok l.dropLast
  else if maxName < name.utf8ByteSize then .error .nameTooLong
  else if (m.get? (l ++ [name])).isNone then .error .notFound
  else .ok (l ++ [name])

/-- Why no path with this text is followed at all. -/
def refusal? (path : String) : Option FileError :=
  if path.toList.contains '\x00' then some .nulInPath
  else if path = "" then some .notFound
  else if pathBound ≤ path.utf8ByteSize then some .nameTooLong
  else none

/-- Where a path starts. -/
def start (m : Memory) (path : String) : Location :=
  if Path.isAbsolute path then [] else m.home

/-- The location that a path leads to. -/
def locate (m : Memory) (path : String) : Except FileError Location :=
  match refusal? path with
  | some e => .error e
  | none => do
    let l ← (Path.names path).foldlM m.step (m.start path)
    if Path.endsInSlash path ∧ !m.isDirectoryAt l then throw .notADirectory
    return l

/-- The directory in which a path names something, and the name; no name for the root itself. -/
def locateName (m : Memory) (path : String) : Except FileError (Location × Option String) :=
  match refusal? path with
  | some e => .error e
  | none => do
    let names := Path.names path
    let l ← names.dropLast.foldlM m.step (m.start path)
    if !m.isDirectoryAt l then throw .notADirectory
    return (l, names.getLast?)

/-- Whether a last name stands for a directory that exists anyway. -/
def isDots (name : String) : Bool := name = "." || name = ".."

def readAt (m : Memory) (l : Location) : Except FileError ByteArray :=
  match m.get? l with
  | some (.file content) => .ok content
  | some .directory => .error .isADirectory
  | none => .error .notFound

/-- Makes an empty file at a path, or empties the file there. -/
def create (m : Memory) (path : String) : Except FileError (Location × Memory) := do
  let (l, some name) ← m.locateName path | throw .isADirectory
  if isDots name ∨ Path.endsInSlash path then throw .isADirectory
  if maxName < name.utf8ByteSize then throw .nameTooLong
  if m.isDirectoryAt (l ++ [name]) then throw .isADirectory
  return (l ++ [name], m.put (l ++ [name]) (.file ByteArray.empty))

/-- Makes one directory. -/
def createDir (m : Memory) (path : String) : Except FileError Memory := do
  let (l, some name) ← m.locateName path | throw .alreadyExists
  if isDots name then throw .alreadyExists
  if maxName < name.utf8ByteSize then throw .nameTooLong
  if (m.get? (l ++ [name])).isSome then throw .alreadyExists
  return m.put (l ++ [name]) .directory

def isDirectory (m : Memory) (path : String) : Bool :=
  match m.locate path with
  | .ok l => m.isDirectoryAt l
  | .error _ => false

/-- Makes a directory and those above it that are missing. -/
def createDirs (m : Memory) (path : String) : Except FileError Unit × Memory :=
  makeDirs createDir isDirectory m path

/-- The model as a disk. -/
instance : Disk (StateM Memory) where
  Handle := Location
  openFile path := fun m => (m.locate path, m)
  read l := fun m => (m.readAt l, m)
  create path := fun m =>
    match m.create path with
    | .ok (l, m) => (.ok l, m)
    | .error e => (.error e, m)
  write l content := fun m => (.ok (), m.put l (.file content))
  createDirs path := fun m => m.createDirs path

end Memory
end SchemaDocs
