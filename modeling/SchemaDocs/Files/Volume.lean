import SchemaDocs.Files.Memory

/-!
# File systems with links

A file system in which a name may stand for a directory, a file or a symbolic link, and in which
several names may stand for one file. Paths are followed through links. A path whose last name is a
link to nothing makes its file where the link leads. Permissions and failing writes are left out.
-/

namespace SchemaDocs

/-- What a name stands for. -/
inductive Entry where
  | directory
  /-- The file of a number: names with one number stand for one file. -/
  | file (number : Nat)
  /-- A symbolic link, which leads on to a path. -/
  | link (target : String)
deriving DecidableEq

/-- What stands where. The root is always a directory. -/
structure Volume where
  entries : List (Location × Entry)
  /-- The content of each file. -/
  content : Nat → ByteArray
  /-- The working directory, where relative paths start. -/
  home : Location

namespace Entry

def number : Entry → Nat
  | file n => n
  | _ => 0

/-- The entry that stands for a node, a file by the given number. -/
def ofNode (n : Nat) : Node → Entry
  | .directory => .directory
  | .file _ => .file n

end Entry

namespace Volume

open Memory (isDots maxName refusal?)

/-- The file system in which all stands as in memory, each file under a number of its own. -/
def ofMemory (m : Memory) : Volume where
  entries := m.nodes.zipIdx.map fun x => (x.1.1, .ofNode x.2 x.1.2)
  content n :=
    match m.nodes[n]? with
    | some (_, .file content) => content
    | _ => ByteArray.empty
  home := m.home

/-- The most links that are followed on one path. -/
def maxLinks : Nat := 40

def tooManyLinks : FileError := .system "Too many levels of symbolic links (os error 40)"

def get? (v : Volume) (l : Location) : Option Entry :=
  if l = [] then some .directory else v.entries.lookup l

def isDirectoryAt (v : Volume) (l : Location) : Bool := v.get? l = some .directory

/-- Adds an entry where there is none. -/
def put (v : Volume) (l : Location) (e : Entry) : Volume :=
  { v with entries := (l, e) :: v.entries }

/-- Changes the content of a file. -/
def save (v : Volume) (n : Nat) (content : ByteArray) : Volume :=
  { v with content := fun k => if k = n then content else v.content k }

/-- A number that no file has. -/
def fresh (v : Volume) : Nat := (v.entries.map (·.2.number)).foldr max 0 + 1

/-- Where a path starts that is read at a location. -/
def start (l : Location) (path : String) : Location := if Path.isAbsolute path then [] else l

/-- The names that a path has to be followed by. A slash at the end asks for a directory, as `.`
does. -/
def steps (path : String) : List String :=
  Path.names path ++ if Path.endsInSlash path then ["."] else []

/-- What a name in a directory turns out to be. -/
inductive Turn where
  | place (l : Location)
  | link (target : String)
  | nothing

def Turn.of (l : Location) : Option Entry → Turn
  | none => .nothing
  | some (.link target) => .link target
  | some _ => .place l

/-- Looks up one name at a location. -/
def turn (v : Volume) (l : Location) (name : String) : Except FileError Turn :=
  if !v.isDirectoryAt l then .error .notADirectory
  else if name = "." then .ok (.place l)
  else if name = ".." then .ok (.place l.dropLast)
  else if maxName < name.utf8ByteSize then .error .nameTooLong
  else .ok (.of (l ++ [name]) (v.get? (l ++ [name])))

/-- Follows names from a location, and a link by `jump`. The last name may stand for nothing if
`free` says so. -/
def walkWith (v : Volume) (free : Bool)
    (jump : Location → List String → Except FileError Location) (l : Location) :
    List String → Except FileError Location
  | [] => .ok l
  | name :: names =>
    match v.turn l name with
    | .error e => .error e
    | .ok (.place l) => v.walkWith free jump l names
    | .ok (.link target) => jump (start l target) (steps target ++ names)
    | .ok .nothing => if free ∧ names = [] then .ok (l ++ [name]) else .error .notFound

/-- Follows names from a location, through at most `links` links. -/
def walk (v : Volume) (free : Bool) (links : Nat) :
    Location → List String → Except FileError Location :=
  match links with
  | 0 => v.walkWith free fun _ _ => .error tooManyLinks
  | links + 1 => v.walkWith free (v.walk free links)

/-- Where a row of names leads, from where the path starts. -/
def follow (v : Volume) (free : Bool) (path : String) (names : List String) :
    Except FileError Location :=
  v.walk free maxLinks (start v.home path) names

/-- The location that a path leads to. -/
def locate (v : Volume) (path : String) : Except FileError Location :=
  match refusal? path with
  | some e => .error e
  | none => v.follow false path (steps path)

/-- The file that a path leads to. -/
def fileAt? (v : Volume) (path : String) : Option Nat :=
  match v.locate path with
  | .error _ => none
  | .ok l =>
    match v.get? l with
    | some (.file n) => some n
    | _ => none

/-- The directory in which a path names something, and the name; no name for the root itself. -/
def locateName (v : Volume) (path : String) : Except FileError (Location × Option String) :=
  match refusal? path with
  | some e => .error e
  | none => do
    let names := Path.names path
    let l ← v.follow false path names.dropLast
    if !v.isDirectoryAt l then throw .notADirectory
    return (l, names.getLast?)

/-- Makes an empty file where a path leads, or empties the file there. -/
def create (v : Volume) (path : String) : Except FileError (Nat × Volume) := do
  let _ ← v.locateName path
  if Path.endsInSlash path then throw .isADirectory
  let l ← v.follow true path (Path.names path)
  match v.get? l with
  | none => return (v.fresh, (v.put l (.file v.fresh)).save v.fresh ByteArray.empty)
  | some (.file n) => return (n, v.save n ByteArray.empty)
  | some _ => throw .isADirectory

/-- Makes one directory. -/
def createDir (v : Volume) (path : String) : Except FileError Volume := do
  let (l, some name) ← v.locateName path | throw .alreadyExists
  if isDots name then throw .alreadyExists
  if maxName < name.utf8ByteSize then throw .nameTooLong
  if (v.get? (l ++ [name])).isSome then throw .alreadyExists
  return v.put (l ++ [name]) .directory

def isDirectory (v : Volume) (path : String) : Bool :=
  match v.locate path with
  | .ok l => v.isDirectoryAt l
  | .error _ => false

/-- Makes a directory and those above it that are missing. -/
def createDirs (v : Volume) (path : String) : Except FileError Unit × Volume :=
  makeDirs createDir isDirectory v path

/-- The content of what is open; only files have one. -/
def readEntry (v : Volume) : Entry → Except FileError ByteArray
  | .file n => .ok (v.content n)
  | .directory => .error .isADirectory
  | .link _ => .error tooManyLinks

/-- The content of the file at a location. -/
def readAt (v : Volume) (l : Location) : Except FileError ByteArray :=
  match v.get? l with
  | some e => v.readEntry e
  | none => .error .notFound

/-- The model as a disk, on which an open file is known by its number. -/
instance : Disk (StateM Volume) where
  Handle := Entry
  openFile path := fun v => (v.locate path >>= fun l => (v.get? l).elim (.error .notFound) .ok, v)
  read e := fun v => (v.readEntry e, v)
  create path := fun v =>
    match v.create path with
    | .ok (n, v) => (.ok (.file n), v)
    | .error e => (.error e, v)
  write e content := fun v =>
    match e with
    | .file n => (.ok (), v.save n content)
    | _ => (.error (.system "Bad file descriptor (os error 9)"), v)
  createDirs path := fun v => v.createDirs path

end Volume
end SchemaDocs
