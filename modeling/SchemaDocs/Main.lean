import SchemaDocs.Command

/-!
# The program

The command line on the running system.
-/

namespace SchemaDocs.Main

/-- What the system reports as the reason of a failure. -/
def fileError : IO.Error → FileError
  | .noFileOrDirectory .. => .notFound
  | .alreadyExists .. => .alreadyExists
  | .inappropriateType _ 20 _ => .notADirectory
  | .inappropriateType _ 21 _ => .isADirectory
  | e => .system e.toString

def attempt {α : Type} (x : IO α) : IO (Except FileError α) := do
  match ← x.toBaseIO with
  | .ok a => return .ok a
  | .error e => return .error (fileError e)

instance : Disk IO where
  Handle := IO.FS.Handle
  openFile path := attempt (IO.FS.Handle.mk path .read)
  read handle := attempt handle.readBinToEnd
  create path := attempt (IO.FS.Handle.mk path .write)
  write handle bytes := attempt (do handle.write bytes; handle.flush)
  createDirs path := attempt (IO.FS.createDirAll path)

def readStdin : IO (Except FileError ByteArray) := do
  attempt (IO.FS.Stream.readBinToEnd (← IO.getStdin))

def usage : String :=
  "usage: convert [INPUT] [-o FILE] | prune [INPUT] [-o FILE] | " ++
    "generate INPUT -c FILE [--out-dir DIR]"

end SchemaDocs.Main

open SchemaDocs in
def main (args : List String) : IO UInt32 := do
  match Command.parse? args with
  | none =>
    (← IO.getStderr).putStrLn Main.usage
    return 2
  | some command =>
    match ← command.run Main.readStdin with
    | .error text =>
      (← IO.getStderr).putStrLn ("Error: " ++ text)
      return 1
    | .ok bytes =>
      (← IO.getStdout).write bytes
      return 0
