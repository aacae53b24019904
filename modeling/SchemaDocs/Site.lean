import SchemaDocs.Phase
import SchemaDocs.Section.Assignment

/-!
# Whole sites

The complete run: every file of a schema is converted and takes part in pruning, the packages of the
files to be generated are grouped into chapters, and each chapter is written to a file of its own.
No file is touched before all chapters are known.
-/

namespace SchemaDocs

open Doc (Package Chapter)

/-- Why a run fails. -/
inductive SiteError where
  | input (cause : FileError)
  /-- The input is no schema. -/
  | malformed
  | conversion (e : ConversionError)
  | resolution (e : ResolutionError)
  | assignment (e : AssignmentError)
  /-- A directory or file that cannot be made. -/
  | create (path : String) (cause : FileError)
  | write (path : String) (cause : FileError)
deriving DecidableEq

namespace SiteError

/-- What failed, without the system's reason. -/
def headline : SiteError → String
  | input cause => cause.message
  | malformed => "failed to parse declaration set"
  | conversion e => e.message
  | resolution e => e.message
  | assignment e => e.message
  | create path _ => "failed to create " ++ path
  | write path _ => "failed to write " ++ path

/-- The system's reason, where the headline does not tell it. -/
def cause? : SiteError → Option FileError
  | create _ cause | write _ cause => some cause
  | _ => none

def message (e : SiteError) : String :=
  match e.cause? with
  | some cause => e.headline ++ ": " ++ cause.message
  | none => e.headline

end SiteError

namespace Site

/-- The packages of the files that are marked for generation, from the packages of all files. -/
def selected (files : List Schema.File) (ps : List Package) : List Package :=
  (ps.zip files).filterMap fun (p, f) => if f.generate then some p else none

/-- The chapters of a schema under a configuration. -/
def chapters (s : Schema) (config : Configuration) : Except SiteError (KeyMap Chapter) := do
  let ps ← s.packages.mapError .conversion
  let (pruned, _) ← (prune ps).mapError .resolution
  (assign config (selected s.ordered pruned)).mapError .assignment

/-- The chapters of the schema in an input. -/
def chaptersOf (input : Except FileError ByteArray) (config : Configuration) :
    Except SiteError (KeyMap Chapter) :=
  match input.bind decodeText with
  | .error e => .error (.input e)
  | .ok text =>
    match Schema.read.document? text with
    | none => .error .malformed
    | some s => chapters s config

/-- The path of the file for the section with the given key. -/
def filePath (dir key : String) : String := Path.join dir (key ++ ".json")

/-- The content of a chapter's file. -/
def fileText (c : Chapter) : String := prettyText c.toJson ++ "\n"

variable {m : Type → Type} [Monad m] [Disk m]

/-- Writes one chapter. -/
def writeChapter (path : String) (c : Chapter) : m (Except SiteError Unit) := do
  match ← Disk.create path with
  | .error e => return .error (.create path e)
  | .ok handle =>
    match ← Disk.write handle (fileText c).toUTF8 with
    | .error e => return .error (.write path e)
    | .ok () => return .ok ()

/-- Writes chapters one after the other, up to the first that fails, and gives their paths. -/
def writeChapters (dir : String) : List (String × Chapter) → m (Except SiteError (List String))
  | [] => return .ok []
  | (key, c) :: rest => do
    match ← writeChapter (filePath dir key) c with
    | .error e => return .error e
    | .ok () =>
      match ← writeChapters dir rest with
      | .error e => return .error e
      | .ok paths => return .ok (filePath dir key :: paths)

/-- Writes the chapters of an input into a directory, in the order of their keys. -/
def generate (input : Except FileError ByteArray) (config : Configuration) (dir : String) :
    m (Except SiteError (List String)) := do
  match chaptersOf input config with
  | .error e => return .error e
  | .ok chapters =>
    match ← Disk.createDirs dir with
    | .error e => return .error (.create dir e)
    | .ok () => writeChapters dir chapters.entries

end Site
end SchemaDocs
