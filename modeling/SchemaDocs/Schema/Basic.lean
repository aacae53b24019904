import SchemaDocs.Name

/-!
# Interface schemas

The declarations that a schema compiler hands over: files with enumerations, messages that may
hold further declarations, and services whose methods may be bound to HTTP. A type is named in full
and without a leading dot.
-/

namespace SchemaDocs

namespace Schema

/-- The kind of a field, as the schema compiler reports it. -/
inductive Kind where
  | double | float | int64 | uint64 | int32 | fixed64 | fixed32 | bool | string | group | message
  | bytes | uint32 | enum | sfixed32 | sfixed64 | sint32 | sint64
  /-- Any other kind. -/
  | unknown
deriving DecidableEq

namespace Kind

/-- The keyword of a kind. -/
def word : Kind → String
  | double => "double" | float => "float" | int64 => "int64" | uint64 => "uint64"
  | int32 => "int32" | fixed64 => "fixed64" | fixed32 => "fixed32" | bool => "bool"
  | string => "string" | group => "group" | message => "message" | bytes => "bytes"
  | uint32 => "uint32" | enum => "enum" | sfixed32 => "sfixed32" | sfixed64 => "sfixed64"
  | sint32 => "sint32" | sint64 => "sint64" | unknown => "unknown"

/-- The kinds that have a keyword of their own. -/
def known : List Kind :=
  [double, float, int64, uint64, int32, fixed64, fixed32, bool, string, group, message, bytes,
    uint32, enum, sfixed32, sfixed64, sint32, sint64]

/-- The kind of a keyword; every other word is an unknown kind. -/
def ofWord (s : String) : Kind := (known.find? (·.word = s)).getD unknown

theorem ofWord_word (k : Kind) : ofWord k.word = k := by cases k <;> decide

end Kind

/-- How often a field occurs. -/
inductive Cardinality where
  | optional | required | repeated
deriving DecidableEq

namespace Cardinality

def word : Cardinality → String
  | optional => "optional" | required => "required" | repeated => "repeated"

def ofWord? (s : String) : Option Cardinality := [optional, required, repeated].find? (·.word = s)

theorem ofWord?_word (c : Cardinality) : ofWord? c.word = some c := by cases c <;> decide

end Cardinality

structure Field where
  /-- The declared name. -/
  name : String
  /-- The declared wire name, if any. -/
  jsonName : Option String
  description : String
  kind : Kind
  cardinality : Cardinality
  /-- The full name of the field's message or enumeration. -/
  typeName : Option String
  /-- A map field; its type names the entry message that holds key and value. -/
  isMap : Bool
deriving DecidableEq

namespace Field

/-- The name of the field in documents. -/
def wireName (f : Field) : String := f.jsonName.getD (Name.wire f.name)

def isRepeated (f : Field) : Bool := f.cardinality = .repeated

/-- The full name of the field's type, empty when there is none. -/
def target (f : Field) : String := f.typeName.getD ""

end Field

structure EnumValue where
  name : String
  number : Int32
  description : String
deriving DecidableEq

structure Enum where
  name : String
  fullName : String
  description : String
  values : List EnumValue
deriving DecidableEq

structure Message where
  name : String
  /-- The name with that of the package and of all enclosing messages. -/
  fullName : String
  description : String
  fields : List Field
  /-- The messages declared inside this one. -/
  messages : List Message
  /-- The enumerations declared inside this one. -/
  enums : List Enum
  /-- An entry message that stands for the key and value of a map field. -/
  isMapEntry : Bool

/-- Verb and path of an HTTP binding. -/
inductive Route where
  | get (path : String)
  | put (path : String)
  | post (path : String)
  | delete (path : String)
  | patch (path : String)
  | custom (verb path : String)
deriving DecidableEq

namespace Route

def verb : Route → String
  | get _ => "GET"
  | put _ => "PUT"
  | post _ => "POST"
  | delete _ => "DELETE"
  | patch _ => "PATCH"
  | custom v _ => v

def path : Route → String
  | get p | put p | post p | delete p | patch p | custom _ p => p

end Route

/-- The HTTP binding of a method. -/
structure Binding where
  route : Option Route
  /-- The declared name of the request's field that is sent as the body, or `*` for all of it. -/
  body : Option String
deriving DecidableEq

structure Method where
  name : String
  description : String
  /-- The full name of the request message. -/
  input : String
  /-- The full name of the response message. -/
  output : String
  clientStreaming : Bool
  serverStreaming : Bool
  /-- A method without a binding is not documented. -/
  http : Option Binding
deriving DecidableEq

structure Service where
  name : String
  description : String
  methods : List Method
deriving DecidableEq

structure File where
  /-- The path of the source file, by which files are ordered. -/
  name : String
  package : String
  displayName : Option String
  description : String
  enums : List Enum
  messages : List Message
  services : List Service
  /-- Whether the file's package is written; other files serve as dependencies. -/
  generate : Bool

/-- The name shown for a file's package: the declared one, else the package's last segment. -/
def File.title (f : File) : String := f.displayName.getD (Name.lastSegment f.package)

end Schema

/-- All files of one run. -/
structure Schema where
  files : List Schema.File

end SchemaDocs
