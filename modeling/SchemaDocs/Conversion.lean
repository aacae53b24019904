import SchemaDocs.Comment
import SchemaDocs.Doc.Basic
import SchemaDocs.Schema.Index

/-!
# From schemas to packages

Every file becomes a package. Its documented declarations become the package's types under their
own names; a use of a message or an enumeration becomes a reference by documented name, a
well-known message a basic type, and a map field a map of what its entry message holds.
-/

namespace SchemaDocs

open Schema (Index Kind)
open Doc (TypeDoc)

/-- Why a schema cannot be documented. -/
inductive ConversionError where
  /-- A field has a kind without documentation. -/
  | unsupportedKind (field : String) (kind : Kind)
  /-- Two declarations of a package have one name. -/
  | duplicateType (package name : String)
  /-- A map field whose type is no message with two fields. -/
  | malformedMapEntry (field entry : String)
  /-- A request whose message is not declared. -/
  | unknownMessage (name : String)
  /-- A binding without verb and path. -/
  | missingRoute (method : String)
  /-- A binding whose body is no field of the request. -/
  | missingBodyField (field method : String)
deriving DecidableEq

namespace ConversionError

def message : ConversionError → String
  | unsupportedKind f k => "field `" ++ f ++ "` has unsupported kind `" ++ k.word ++ "`"
  | duplicateType p n => "package `" ++ p ++ "` declares `" ++ n ++ "` twice"
  | malformedMapEntry f e => "map field `" ++ f ++ "` has malformed entry message `" ++ e ++ "`"
  | unknownMessage n => "unknown message `" ++ n ++ "`"
  | missingRoute m => "method `" ++ m ++ "` has an HTTP rule without pattern"
  | missingBodyField f m => "cannot find body field `" ++ f ++ "` for method `" ++ m ++ "`"

end ConversionError

namespace Conversion

/-- The messages that are shown as basic types, with the names shown. -/
def basicMessages : List (String × String) :=
  [("google.protobuf.Any", "Any"), ("google.protobuf.Duration", "Duration"),
    ("google.protobuf.Empty", "Empty"), ("google.protobuf.Value", "JSON"),
    ("google.protobuf.ListValue", "JSON List"), ("google.protobuf.Struct", "JSON Struct"),
    ("google.protobuf.Timestamp", "Timestamp")]

/-- The name of the basic type for a scalar kind. -/
def scalarTitle? : Kind → Option String
  | .bool => some "Boolean"
  | .int32 | .sint32 | .sfixed32 | .fixed32 => some "Integer"
  | .uint32 => some "Unsigned Integer"
  | .int64 | .sint64 | .sfixed64 | .fixed64 => some "Integer(64)"
  | .uint64 => some "Unsigned Integer(64)"
  | .float => some "Float(32)"
  | .double => some "Float(64)"
  | .string => some "String"
  | .bytes => some "Bytes"
  | .enum | .message | .group | .unknown => none

/-- The type shown where a message is used. -/
def messageUse (ix : Index) (fullName : String) : TypeDoc :=
  match basicMessages.lookup fullName with
  | some name => .basic name ""
  | none => .ref (ix.flatName fullName)

/-- The type of one value of a field that is no map. -/
def elementType (ix : Index) (f : Schema.Field) : Except ConversionError TypeDoc :=
  match f.kind with
  | .enum => .ok (.ref (ix.flatName f.target))
  | .message => .ok (messageUse ix f.target)
  | kind =>
    match scalarTitle? kind with
    | some name => .ok (.basic name "")
    | none => .error (.unsupportedKind f.name kind)

/-- The type of a field whose chain of map entries has at most `depth` links. A longer chain leads
back to itself. The program follows it without end and does not return; the error at the end of
`depth` stands for that. -/
def typeWithin (ix : Index) (depth : Nat) (f : Schema.Field) : Except ConversionError TypeDoc :=
  if f.isMap then
    match depth, ix.message? f.target with
    | depth + 1, some ⟨_, _, _, key :: value :: _, _, _, _⟩ => do
      let key ← typeWithin ix depth key
      let value ← typeWithin ix depth value
      return .map key value
    | _, _ => .error (.malformedMapEntry f.name f.target)
  else do
    let element ← elementType ix f
    return if f.isRepeated then .array element else element

/-- The type of a field. A chain of different entry messages is no longer than the index. -/
def typeOf (ix : Index) (f : Schema.Field) : Except ConversionError TypeDoc :=
  typeWithin ix ix.declared.length f

def field (ix : Index) (f : Schema.Field) : Except ConversionError Doc.Field := do
  return .mk f.wireName (Comment.shortFor f.name f.description) (← typeOf ix f)

def enum (e : Schema.Enum) : TypeDoc :=
  .enum e.name (Comment.longFor e.name e.description)
    (e.values.map fun v => ⟨v.name, Comment.shortFor v.name v.description⟩)

/-- The documentation of a declaration. -/
def declaration (ix : Index) : Schema.Declaration → Except ConversionError TypeDoc
  | .enum e => .ok (enum e)
  | .message m => do
    return .message m.name (Comment.longFor m.name m.description) (← m.fields.mapM (field ix))

/-- Adds a declaration's documentation under its own name, which must be free. -/
def addType (package : String) (types : KeyMap TypeDoc) (name : String) (type : TypeDoc) :
    Except ConversionError (KeyMap TypeDoc) :=
  if types.contains name then .error (.duplicateType package name)
  else .ok (types.insert name type)

/-- The types of a package, from its documented declarations in order. -/
def typesOf (ix : Index) (package : String) (ds : List Schema.Declaration) :
    Except ConversionError (KeyMap TypeDoc) :=
  ds.foldlM
    (fun types d => do addType package types d.name (← declaration ix d)) KeyMap.empty

/-- The wire name of the request's field that a binding sends as the body. -/
def bodyName (ix : Index) (input body method : String) : Except ConversionError String :=
  match ix.message? input with
  | none => .error (.unknownMessage input)
  | some m =>
    match m.fields.find? (·.name = body) with
    | none => .error (.missingBodyField body method)
    | some f => .ok f.wireName

/-- The endpoint of a method, if the method is bound to HTTP. -/
def endpoint? (ix : Index) (service : String) (m : Schema.Method) :
    Except ConversionError (Option Doc.Endpoint) :=
  match m.http with
  | none => .ok none
  | some binding => do
    let full := service ++ "." ++ m.name
    let some route := binding.route | throw (.missingRoute full)
    let bodyField ←
      match binding.body with
      | none | some "" => pure none
      | some "*" => pure (some "*")
      | some body => some <$> bodyName ix m.input body full
    return some
      { name := m.name
        description := Comment.longFor m.name m.description
        method := route.verb
        path := route.path
        bodyField
        request := messageUse ix m.input
        response := messageUse ix m.output
        streamingRequest := m.clientStreaming
        streamingResponse := m.serverStreaming }

def service (ix : Index) (s : Schema.Service) : Except ConversionError Doc.Service := do
  let endpoints ← s.methods.mapM (endpoint? ix s.name)
  return ⟨s.name, Comment.longFor s.name s.description, endpoints.filterMap id⟩

/-- The package of a file. -/
def package (ix : Index) (f : Schema.File) : Except ConversionError Doc.Package := do
  let types ← typesOf ix f.package f.documented
  let services ← f.services.mapM (service ix)
  return { name := f.title, id := f.package, description := Comment.plain f.description, services,
           types }

end Conversion

namespace Schema

/-- The index of a schema in which no package declares a name twice. -/
def index? (s : Schema) : Except ConversionError Index :=
  match s.clash? with
  | some (package, name) => .error (.duplicateType package name)
  | none => .ok s.index

/-- The packages of all files, in the order of the files' names. -/
def packages (s : Schema) : Except ConversionError (List Doc.Package) := do
  let ix ← s.index?
  s.ordered.mapM (Conversion.package ix)

end Schema
end SchemaDocs
