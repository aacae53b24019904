import SchemaDocs.Files.Error

/-!
# Faulty streams

An input that breaks off once it has given a number of bytes, and an output that takes a limited
number of bytes and refuses what goes beyond after the part that still fits.
-/

namespace SchemaDocs

structure Source where
  bytes : ByteArray
  /-- The number of bytes after which the input breaks off, if it does. -/
  limit : Option Nat

/-- Reads an input to its end. One that breaks off there is broken too, for the end is only seen by
asking for more. -/
def Source.readAll (s : Source) : Except FileError ByteArray :=
  match s.limit with
  | none => .ok s.bytes
  | some n => if n ≤ s.bytes.size then .error .inputBroken else .ok s.bytes

structure Sink where
  /-- The greatest number of bytes it takes, if there is one. -/
  limit : Option Nat
  written : ByteArray

namespace Sink

/-- An output that takes everything. -/
def unlimited : Sink := ⟨none, ByteArray.empty⟩

def write (s : Sink) (bytes : ByteArray) : Except FileError Unit × Sink :=
  match s.limit with
  | none => (.ok (), { s with written := s.written ++ bytes })
  | some n =>
    let room := n - s.written.size
    if bytes.size ≤ room then (.ok (), { s with written := s.written ++ bytes })
    else (.error .outputFull, { s with written := s.written ++ bytes.extract 0 room })

def writeText (s : Sink) (text : String) : Except FileError Unit × Sink := s.write text.toUTF8

end Sink
end SchemaDocs
