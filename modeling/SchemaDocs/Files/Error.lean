/-!
# File errors

What can go wrong with a file or a stream, and how it is reported.
-/

namespace SchemaDocs

inductive FileError where
  | notFound
  | alreadyExists
  | notADirectory
  | isADirectory
  | nameTooLong
  /-- A path with a NUL character in it. -/
  | nulInPath
  /-- Bytes that are not UTF-8 where a text is read. -/
  | notText
  /-- An input that broke off. -/
  | inputBroken
  /-- An output that takes no more. -/
  | outputFull
  /-- Anything else the system reports. -/
  | system (text : String)
deriving DecidableEq

def FileError.message : FileError → String
  | notFound => "No such file or directory (os error 2)"
  | alreadyExists => "File exists (os error 17)"
  | notADirectory => "Not a directory (os error 20)"
  | isADirectory => "Is a directory (os error 21)"
  | nameTooLong => "File name too long (os error 36)"
  | nulInPath => "file name contained an unexpected NUL byte"
  | notText => "stream did not contain valid UTF-8"
  | inputBroken => "input broken"
  | outputFull => "output full"
  | system text => text

/-- The text of bytes. -/
def decodeText (bytes : ByteArray) : Except FileError String :=
  match String.fromUTF8? bytes with
  | some s => .ok s
  | none => .error .notText

end SchemaDocs
