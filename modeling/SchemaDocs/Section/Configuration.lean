import SchemaDocs.Files.Disk
import SchemaDocs.KeyMap
import SchemaDocs.Text.Blank
import SchemaDocs.Toml.Document

/-!
# Section configurations

A configuration is a TOML document with one table for each section. Sections, and the entries of
one, are checked in the order of their keys. A section's key names its output file; its `packages`
are members to be matched; its `preamble` is a path whose text is taken in; its `weight` may be
given as a string.
-/

namespace SchemaDocs

/-- What a configuration says of a section. -/
structure Section where
  /-- The name to show, the section's key unless given. -/
  name : String
  /-- What names the section's packages. -/
  members : List String
  preamble : String
  weight : Int64
deriving DecidableEq

structure Configuration where
  sections : KeyMap Section

/-- The key of the section for all packages that no other section names. -/
def defaultKey : String := "default"

/-- What is wrong with a configuration. -/
inductive ConfigurationError where
  /-- A section's key cannot name a file. -/
  | invalidName (key : String)
  | unknownEntry (entry key : String)
  /-- The default section names packages. -/
  | defaultHasMembers
  | invalidWeight (key : String)
  /-- An entry that must be a string. -/
  | notString (entry key : String)
  /-- A section that is no table. -/
  | notTable (key : String)
  | preamble (path : String) (cause : FileError)
  /-- The text is no TOML document. -/
  | syntaxError
  /-- The configuration's own file cannot be read. -/
  | unreadable (path : String) (cause : FileError)
deriving DecidableEq

def ConfigurationError.message : ConfigurationError → String
  | invalidName k => "section name `" ++ k ++ "` is not a valid file name"
  | unknownEntry e k => "unknown key `" ++ e ++ "` in section `" ++ k ++ "`"
  | defaultHasMembers => "default section may not specify packages"
  | invalidWeight k => "weight not a number in section `" ++ k ++ "`"
  | notString e k => "`" ++ e ++ "` in section `" ++ k ++ "` must be a string"
  | notTable k => "section `" ++ k ++ "` must be a table"
  | preamble p cause => "cannot read preamble file " ++ p ++ ": " ++ cause.message
  | syntaxError => "invalid section configuration"
  | unreadable p cause => "cannot read " ++ p ++ ": " ++ cause.message

namespace Section

/-- Whether a key names a file of its own in a directory. -/
def canNameFile (key : String) : Bool :=
  key != "" && key != "." && key != ".." &&
    key.toList.all fun c => c != '/' && c != '\\' && c != '\x00'

/-- The members in a text: the pieces between commas, trimmed, without empty ones. -/
def splitMembers (text : String) : List String :=
  (((text.toList.splitOn ',').map Text.trim).filter (· ≠ [])).map String.ofList

/-- The weight in a text: a decimal integer of 64 bits with white space around it. -/
def readWeight? (text : String) : Option Int64 :=
  match Decimal.signed? (Text.trim text.toList) with
  | some n => if Decimal.fits 64 n then some (Int64.ofInt n) else none
  | none => none

def weightOf? : Toml.Value → Option Int64
  | .integer n => if Decimal.fits 64 n then some (Int64.ofInt n) else none
  | .string s => readWeight? s
  | _ => none

def textOf (entry key : String) : Toml.Value → Except ConfigurationError String
  | .string s => .ok s
  | _ => .error (.notString entry key)

/-- Reads a preamble, or says why it cannot be read. -/
def preambleText (texts : String → Except FileError String) (path : String) :
    Except ConfigurationError String :=
  match texts path with
  | .ok s => .ok s
  | .error e => .error (.preamble path e)

/-- Takes in one entry. `texts` holds the texts of files, and paths start at `dir`. -/
def addEntry (texts : String → Except FileError String) (dir key : String) (s : Section)
    (entry : String) (v : Toml.Value) : Except ConfigurationError Section :=
  match entry with
  | "name" => do return { s with name := ← textOf entry key v }
  | "packages" =>
    if key = defaultKey then .error .defaultHasMembers
    else do return { s with members := splitMembers (← textOf entry key v) }
  | "preamble" => do
    let path := Path.join dir (← textOf entry key v)
    return { s with preamble := ← preambleText texts path }
  | "weight" =>
    match weightOf? v with
    | some w => .ok { s with weight := w }
    | none => .error (.invalidWeight key)
  | _ => .error (.unknownEntry entry key)

/-- A section of which nothing is said. -/
def initial (key : String) : Section := ⟨key, [], "", 0⟩

/-- The section that a value under a key describes. -/
def ofValue (texts : String → Except FileError String) (dir key : String) (v : Toml.Value) :
    Except ConfigurationError Section :=
  if !canNameFile key then .error (.invalidName key)
  else
    match v with
    | .table entries =>
      (KeyMap.ofList entries).entries.foldlM
        (fun s e => addEntry texts dir key s e.1 e.2) (initial key)
    | _ => .error (.notTable key)

end Section

namespace Configuration

/-- The configuration that a table describes. -/
def ofTable (texts : String → Except FileError String) (dir : String) (table : KeyMap Toml.Value) :
    Except ConfigurationError Configuration := do
  let sections ← table.entries.foldlM
    (fun sections e => do return sections.insert e.1 (← Section.ofValue texts dir e.1 e.2))
    KeyMap.empty
  return ⟨sections⟩

/-- The table that a text states. -/
def table (text : String) : Except ConfigurationError (KeyMap Toml.Value) :=
  match Toml.parse? text.toList with
  | some t => .ok t
  | none => .error .syntaxError

/-- The configuration that a text describes. -/
def ofText (texts : String → Except FileError String) (dir text : String) :
    Except ConfigurationError Configuration := do
  ofTable texts dir (← table text)

/-- The paths of all preambles that a table names. -/
def preamblePaths (dir : String) (table : KeyMap Toml.Value) : List String :=
  table.values.flatMap fun
    | .table entries => entries.filterMap fun
      | ("preamble", .string path) => some (Path.join dir path)
      | _ => none
    | _ => []

variable {m : Type → Type} [Monad m] [Disk m]

/-- The configuration that a text describes, with its preambles from the disk. -/
def fromText (dir text : String) : m (Except ConfigurationError Configuration) :=
  match table text with
  | .error e => pure (.error e)
  | .ok table => do
    let texts ← (preamblePaths dir table).mapM fun path => do
      return (path, ← Disk.readText path)
    return ofTable (fun path => (texts.lookup path).getD (.error .notFound)) dir table

/-- The configuration in a file; its directory is where the preambles' paths start. -/
def fromFile (path : String) : m (Except ConfigurationError Configuration) := do
  match ← Disk.readText path with
  | .error e => return .error (.unreadable path e)
  | .ok text => fromText ((Path.parent? path).getD "") text

end Configuration
end SchemaDocs
