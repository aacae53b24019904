import SchemaDocs.Json.Record
import SchemaDocs.Doc.Basic

/-!
# Documentation trees as JSON

The written form of packages and chapters, and its reader. A type is an object with its form under
the key `type`, or an array that starts with it.
-/

namespace SchemaDocs.Doc
open Json (Reader Value)

def EnumValue.toJson (v : EnumValue) : Value :=
  .record [("value", .text v.value), ("description", .text v.description)]

mutual

def TypeDoc.toJson : TypeDoc → Value
  | .message name description fields =>
    .record [("type", .text "message"), ("name", .text name), ("description", .text description),
      ("fields", .array (fieldsToJson fields))]
  | .enum name description values =>
    .record [("type", .text "enum"), ("name", .text name), ("description", .text description),
      ("values", .array (values.map EnumValue.toJson))]
  | .ref name => .record [("type", .text "ref"), ("name", .text name)]
  | .map key value =>
    .record [("type", .text "map"), ("key", key.toJson), ("value", value.toJson)]
  | .array item => .record [("type", .text "array"), ("value", item.toJson)]
  | .basic name sample =>
    .record [("type", .text "basic"), ("name", .text name), ("example", .text sample)]

def fieldsToJson : List Field → List Value
  | [] => []
  | .mk name description type :: fs =>
    .record [("name", .text name), ("description", .text description), ("type", type.toJson)] ::
      fieldsToJson fs

end

def Endpoint.toJson (e : Endpoint) : Value :=
  .record [("name", .text e.name), ("description", .text e.description),
    ("method", .text e.method), ("path", .text e.path),
    ("body_field", .optional .text e.bodyField), ("request", e.request.toJson),
    ("response", e.response.toJson), ("streaming_request", .bool e.streamingRequest),
    ("streaming_response", .bool e.streamingResponse)]

def Service.toJson (s : Service) : Value :=
  .record [("name", .text s.name), ("description", .text s.description),
    ("endpoints", .array (s.endpoints.map Endpoint.toJson))]

def Package.toJson (p : Package) : Value :=
  .record [("name", .text p.name), ("id", .text p.id), ("description", .text p.description),
    ("services", .array (p.services.map Service.toJson)),
    ("types", .record (p.types.map fun _ t => t.toJson).entries)]

def Chapter.toJson (c : Chapter) : Value :=
  .record [("name", .text c.name), ("preamble", .text c.preamble), ("weight", .int c.weight.toInt),
    ("packages", .array (c.packages.map Package.toJson))]

/-! ## Readers -/

def EnumValue.read : Reader EnumValue :=
  .enter fun depth v => do
    let [value, description] ← v.fields? ["value", "description"] | none
    let value ← Reader.required .text depth value
    let description ← Reader.required .text depth description
    return { value, description }

/-- The forms of types, in the order of their numbers. -/
def TypeDoc.forms : List String := ["message", "enum", "ref", "map", "array", "basic"]

/-- The form of a type and the record of its parts. Inside another type a form may also be given by
its number. -/
def TypeDoc.split? (inner : Bool) : Value → Option (String × Value)
  | .object members => do
    let form ← form? (← (← Value.member? "type" members))
    return (form, .object (members.filter (·.1 != some "type")))
  | .array (form :: parts) => do
    return (← form? form, .array parts)
  | _ => none
where
  form? : Value → Option String
    | .string s => s
    | .int n => if inner ∧ 0 ≤ n then TypeDoc.forms[n.toNat]? else none
    | _ => none

/-- Reads a type whose whole value is known to be legible at the given depth. -/
def TypeDoc.readLegible (inner : Bool) : Reader TypeDoc
  | 0, _ => none
  | depth + 1, v => do
    let (form, parts) ← TypeDoc.split? inner v
    match form with
    | "message" => do
      let [name, description, fields] ← parts.fields? ["name", "description", "fields"] | none
      let name ← Reader.required .text depth name
      let description ← Reader.required .text depth description
      let some (.array fields) := fields | none
      let fields ← fields.mapM fun field => do
        let [name, description, type] ← field.fields? ["name", "description", "type"] | none
        let name ← Reader.required .text depth name
        let description ← Reader.required .text depth description
        return Field.mk name description (← TypeDoc.readLegible true depth (← type))
      return .message name description fields
    | "enum" => do
      let [name, description, values] ← parts.fields? ["name", "description", "values"] | none
      let name ← Reader.required .text depth name
      let description ← Reader.required .text depth description
      let values ← Reader.required (.list EnumValue.read) depth values
      return .enum name description values
    | "ref" => do
      let [name] ← parts.fields? ["name"] | none
      let name ← Reader.required .text depth name
      return .ref name
    | "map" => do
      let [key, value] ← parts.fields? ["key", "value"] | none
      return .map (← TypeDoc.readLegible true depth (← key))
        (← TypeDoc.readLegible true depth (← value))
    | "array" => do
      let [item] ← parts.fields? ["value"] | none
      return .array (← TypeDoc.readLegible true depth (← item))
    | "basic" => do
      let [name, sample] ← parts.fields? ["name", "example"] | none
      let name ← Reader.required .text depth name
      let sample ← Reader.orElse "" .text depth sample
      return .basic name sample
    | _ => none

/-- A type, of which also what stands under keys of no meaning must be legible. -/
def TypeDoc.read : Reader TypeDoc := fun depth v =>
  if v.isLegible depth then TypeDoc.readLegible false depth v else none

def Endpoint.read : Reader Endpoint :=
  .enter fun depth v => do
    let [name, description, method, path, bodyField, request, response, streamingRequest,
        streamingResponse] ←
      v.fields?
        ["name", "description", "method", "path", "body_field", "request", "response",
          "streaming_request", "streaming_response"]
      | none
    let name ← Reader.required .text depth name
    let description ← Reader.required .text depth description
    let method ← Reader.required .text depth method
    let path ← Reader.required .text depth path
    let bodyField ← Reader.optional .text depth bodyField
    let request ← Reader.required TypeDoc.read depth request
    let response ← Reader.required TypeDoc.read depth response
    let streamingRequest ← Reader.required .bool depth streamingRequest
    let streamingResponse ← Reader.required .bool depth streamingResponse
    return { name, description, method, path, bodyField, request, response, streamingRequest,
             streamingResponse }

def Service.read : Reader Service :=
  .enter fun depth v => do
    let [name, description, endpoints] ← v.fields? ["name", "description", "endpoints"] | none
    let name ← Reader.required .text depth name
    let description ← Reader.required .text depth description
    let endpoints ← Reader.required (.list Endpoint.read) depth endpoints
    return { name, description, endpoints }

/-- A map of types; of two equal keys the later counts. -/
def readTypes : Reader (KeyMap TypeDoc) :=
  .enter fun depth v => do
    let .object members := v | none
    let entries ← members.mapM fun (key, t) => do return (← key, ← TypeDoc.read depth t)
    return KeyMap.ofList entries

def Package.read : Reader Package :=
  .enter fun depth v => do
    let [name, id, description, services, types] ←
      v.fields? ["name", "id", "description", "services", "types"] | none
    let name ← Reader.required .text depth name
    let id ← Reader.required .text depth id
    let description ← Reader.required .text depth description
    let services ← Reader.required (.list Service.read) depth services
    let types ← Reader.required readTypes depth types
    return { name, id, description, services, types }

def Chapter.read : Reader Chapter :=
  .enter fun depth v => do
    let [name, preamble, weight, packages] ←
      v.fields? ["name", "preamble", "weight", "packages"] | none
    let name ← Reader.required .text depth name
    let preamble ← Reader.required .text depth preamble
    let weight ← Reader.required (.integer 64) depth weight
    let packages ← Reader.required (.list Package.read) depth packages
    return { name, preamble, weight := Int64.ofInt weight, packages }

end SchemaDocs.Doc
