import SchemaDocs.Files.Error
import SchemaDocs.Files.Path

/-!
# Access to files

The operations on files that commands use, in a monad that may be a model or the running system.
-/

namespace SchemaDocs

/-- Access to files by path. -/
class Disk (m : Type → Type) where
  /-- An open file. -/
  Handle : Type
  /-- Opens for reading; a directory can be opened, but not read. -/
  openFile : String → m (Except FileError Handle)
  read : Handle → m (Except FileError ByteArray)
  /-- Opens for writing, and makes the file or empties it. -/
  create : String → m (Except FileError Handle)
  /-- Writes the whole content of a file that was just created. -/
  write : Handle → ByteArray → m (Except FileError Unit)
  /-- Makes a directory and those above it that are missing. -/
  createDirs : String → m (Except FileError Unit)

namespace Disk
variable {m : Type → Type} [Monad m] [Disk m]

/-- Applies a step to a result, unless that is an error. -/
def andThen {ε α β : Type} (x : m (Except ε α)) (f : α → m (Except ε β)) : m (Except ε β) := do
  match ← x with
  | .ok a => f a
  | .error e => pure (.error e)

/-- The text of the file at a path. -/
def readText (path : String) : m (Except FileError String) :=
  andThen (openFile path) fun handle => andThen (read handle) fun bytes => pure (decodeText bytes)

end Disk
end SchemaDocs
