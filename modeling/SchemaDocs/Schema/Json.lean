import SchemaDocs.Json.Record
import SchemaDocs.Schema.Basic

/-!
# Schemas as JSON

The written form of every declaration, and its reader. Names that are absent and flags that are not
set are left out where the reader supplies them.
-/

namespace SchemaDocs.Schema
open Json (Reader Value)

/-- A member that is left out when its value is absent. -/
def present {α : Type} (key : String) (write : α → Value) (a : Option α) : List (String × Value) :=
  (a.map fun a => (key, write a)).toList

/-- A flag that is left out when it is not set. -/
def flag (key : String) (b : Bool) : List (String × Value) := if b then [(key, .bool true)] else []

def Field.toJson (f : Field) : Value :=
  .record <|
    [("name", .text f.name)] ++ present "json_name" .text f.jsonName ++
    [("description", .text f.description), ("kind", .text f.kind.word),
      ("cardinality", .text f.cardinality.word)] ++
    present "type_name" .text f.typeName ++ flag "map" f.isMap

def EnumValue.toJson (v : EnumValue) : Value :=
  .record [("name", .text v.name), ("number", .int v.number.toInt),
    ("description", .text v.description)]

def Enum.toJson (e : Enum) : Value :=
  .record [("name", .text e.name), ("full_name", .text e.fullName),
    ("description", .text e.description), ("values", .array (e.values.map EnumValue.toJson))]

mutual

def Message.toJson : Message → Value
  | ⟨name, fullName, description, fields, messages, enums, isMapEntry⟩ =>
    .record <|
      [("name", .text name), ("full_name", .text fullName), ("description", .text description),
        ("fields", .array (fields.map Field.toJson)),
        ("messages", .array (messagesToJson messages)),
        ("enums", .array (enums.map Enum.toJson))] ++
      flag "map_entry" isMapEntry

def messagesToJson : List Message → List Value
  | [] => []
  | m :: ms => m.toJson :: messagesToJson ms

end

def Route.toJson : Route → Value
  | .get p => .record [("get", .text p)]
  | .put p => .record [("put", .text p)]
  | .post p => .record [("post", .text p)]
  | .delete p => .record [("delete", .text p)]
  | .patch p => .record [("patch", .text p)]
  | .custom v p => .record [("custom", .record [("kind", .text v), ("path", .text p)])]

def Binding.toJson (b : Binding) : Value :=
  .record (present "pattern" Route.toJson b.route ++ present "body" .text b.body)

def Method.toJson (m : Method) : Value :=
  .record <|
    [("name", .text m.name), ("description", .text m.description), ("input_type", .text m.input),
      ("output_type", .text m.output), ("client_streaming", .bool m.clientStreaming),
      ("server_streaming", .bool m.serverStreaming)] ++
    present "http" Binding.toJson m.http

def Service.toJson (s : Service) : Value :=
  .record [("name", .text s.name), ("description", .text s.description),
    ("methods", .array (s.methods.map Method.toJson))]

def File.toJson (f : File) : Value :=
  .record <|
    [("name", .text f.name), ("package", .text f.package)] ++
    present "display_name" .text f.displayName ++
    [("description", .text f.description), ("enums", .array (f.enums.map Enum.toJson)),
      ("messages", .array (messagesToJson f.messages)),
      ("services", .array (f.services.map Service.toJson)), ("generate", .bool f.generate)]

def toJson (s : Schema) : Value := .record [("files", .array (s.files.map File.toJson))]

/-! ## Readers -/

def Field.read : Reader Field :=
  .enter fun depth v => do
    let [name, jsonName, description, kind, cardinality, typeName, isMap] ←
      v.fields? ["name", "json_name", "description", "kind", "cardinality", "type_name", "map"]
      | none
    let name ← Reader.required .text depth name
    let jsonName ← Reader.optional .text depth jsonName
    let description ← Reader.orElse "" .text depth description
    let kind ← Reader.required (.word (some ∘ Kind.ofWord)) depth kind
    let cardinality ← Reader.orElse .optional (.word Cardinality.ofWord?) depth cardinality
    let typeName ← Reader.optional .text depth typeName
    let isMap ← Reader.orElse false .bool depth isMap
    return { name, jsonName, description, kind, cardinality, typeName, isMap }

def EnumValue.read : Reader EnumValue :=
  .enter fun depth v => do
    let [name, number, description] ← v.fields? ["name", "number", "description"] | none
    let name ← Reader.required .text depth name
    let number ← Reader.orElse 0 (.integer 32) depth number
    let description ← Reader.orElse "" .text depth description
    return { name, number := Int32.ofInt number, description }

def Enum.read : Reader Enum :=
  .enter fun depth v => do
    let [name, fullName, description, values] ←
      v.fields? ["name", "full_name", "description", "values"] | none
    let name ← Reader.required .text depth name
    let fullName ← Reader.required .text depth fullName
    let description ← Reader.orElse "" .text depth description
    let values ← Reader.orElse [] (.list EnumValue.read) depth values
    return { name, fullName, description, values }

/-- The parts of a message, where `inner` reads the messages declared inside it. -/
def Message.readParts (inner : Value → Option (List Message)) : Reader Message := fun depth v => do
  let [name, fullName, description, fields, messages, enums, isMapEntry] ←
    v.fields? ["name", "full_name", "description", "fields", "messages", "enums", "map_entry"]
    | none
  let name ← Reader.required .text depth name
  let fullName ← Reader.required .text depth fullName
  let description ← Reader.orElse "" .text depth description
  let fields ← Reader.orElse [] (.list Field.read) depth fields
  let messages ← messages.elim (some []) inner
  let enums ← Reader.orElse [] (.list Enum.read) depth enums
  let isMapEntry ← Reader.orElse false .bool depth isMapEntry
  return { name, fullName, description, fields, messages, enums, isMapEntry }

mutual

def Message.read : Reader Message
  | 0, _ => none
  | depth + 1, v => Message.readParts (Message.readList depth) depth v

def Message.readList : Reader (List Message)
  | depth + 1, .array items => items.mapM (Message.read depth)
  | _, _ => none

end

/-- The verb and path of a custom binding. -/
def Route.readCustom : Reader Route :=
  .enter fun depth v => do
    let [verb, path] ← v.fields? ["kind", "path"] | none
    let verb ← Reader.required .text depth verb
    let path ← Reader.required .text depth path
    return .custom verb path

/-- An object with one key, the verb. -/
def Route.read : Reader Route :=
  .enter fun depth v =>
    match v with
    | .object [(some "get", p)] => (Reader.text depth p).map .get
    | .object [(some "put", p)] => (Reader.text depth p).map .put
    | .object [(some "post", p)] => (Reader.text depth p).map .post
    | .object [(some "delete", p)] => (Reader.text depth p).map .delete
    | .object [(some "patch", p)] => (Reader.text depth p).map .patch
    | .object [(some "custom", r)] => Route.readCustom depth r
    | _ => none

def Binding.read : Reader Binding :=
  .enter fun depth v => do
    let [route, body] ← v.fields? ["pattern", "body"] | none
    let route ← Reader.optional Route.read depth route
    let body ← Reader.optional .text depth body
    return { route, body }

def Method.read : Reader Method :=
  .enter fun depth v => do
    let [name, description, input, output, clientStreaming, serverStreaming, http] ←
      v.fields?
        ["name", "description", "input_type", "output_type", "client_streaming",
          "server_streaming", "http"]
      | none
    let name ← Reader.required .text depth name
    let description ← Reader.orElse "" .text depth description
    let input ← Reader.required .text depth input
    let output ← Reader.required .text depth output
    let clientStreaming ← Reader.orElse false .bool depth clientStreaming
    let serverStreaming ← Reader.orElse false .bool depth serverStreaming
    let http ← Reader.optional Binding.read depth http
    return { name, description, input, output, clientStreaming, serverStreaming, http }

def Service.read : Reader Service :=
  .enter fun depth v => do
    let [name, description, methods] ← v.fields? ["name", "description", "methods"] | none
    let name ← Reader.required .text depth name
    let description ← Reader.orElse "" .text depth description
    let methods ← Reader.orElse [] (.list Method.read) depth methods
    return { name, description, methods }

def File.read : Reader File :=
  .enter fun depth v => do
    let [name, package, displayName, description, enums, messages, services, generate] ←
      v.fields?
        ["name", "package", "display_name", "description", "enums", "messages", "services",
          "generate"]
      | none
    let name ← Reader.required .text depth name
    let package ← Reader.required .text depth package
    let displayName ← Reader.optional .text depth displayName
    let description ← Reader.orElse "" .text depth description
    let enums ← Reader.orElse [] (.list Enum.read) depth enums
    let messages ← Reader.orElse [] (.list Message.read) depth messages
    let services ← Reader.orElse [] (.list Service.read) depth services
    let generate ← Reader.orElse true .bool depth generate
    return { name, package, displayName, description, enums, messages, services, generate }

def read : Reader Schema :=
  .enter fun depth v => do
    let [files] ← v.fields? ["files"] | none
    let files ← Reader.required (.list File.read) depth files
    return { files }

end SchemaDocs.Schema
