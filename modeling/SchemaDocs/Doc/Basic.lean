import SchemaDocs.KeyMap
import SchemaDocs.Name

/-!
# Documentation trees

What is documented of a schema: packages with their services and a map of the types they declare,
and chapters that gather packages. A type names other types by references, which nothing here
follows.
-/

namespace SchemaDocs.Doc

structure EnumValue where
  value : String
  description : String
deriving DecidableEq

mutual

/-- A documented type. Messages and enumerations are declarations; a reference points at one by its
full name; a basic type is a primitive one with an example, empty when there is none. -/
inductive TypeDoc where
  | message (name description : String) (fields : List Field)
  | enum (name description : String) (values : List EnumValue)
  | ref (name : String)
  | map (key value : TypeDoc)
  | array (item : TypeDoc)
  | basic (name sample : String)

/-- A field of a message under its wire name. -/
inductive Field where
  | mk (name description : String) (type : TypeDoc)

end

namespace Field

def name : Field → String
  | mk n _ _ => n

def description : Field → String
  | mk _ d _ => d

def type : Field → TypeDoc
  | mk _ _ t => t

end Field

namespace TypeDoc

instance : Inhabited TypeDoc := ⟨.basic "" ""⟩

/-- The word for a type's form. -/
def form : TypeDoc → String
  | message .. => "message"
  | enum .. => "enum"
  | ref .. => "ref"
  | map .. => "map"
  | array .. => "array"
  | basic .. => "basic"

/-- The name that a type carries itself; arrays and maps carry none. -/
def name? : TypeDoc → Option String
  | message n _ _ | enum n _ _ | ref n | basic n _ => some n
  | map .. | array .. => none

/-- Messages and enumerations. -/
def isDeclaration : TypeDoc → Bool
  | message .. | enum .. => true
  | _ => false

mutual

/-- The names of all references written inside a type, from left to right. -/
def refs : TypeDoc → List String
  | message _ _ fields => fieldRefs fields
  | enum .. => []
  | ref n => [n]
  | map k v => k.refs ++ v.refs
  | array t => t.refs
  | basic .. => []

def fieldRefs : List Field → List String
  | [] => []
  | .mk _ _ t :: fs => t.refs ++ fieldRefs fs

/-- The number of types written inside a type, itself among them. -/
def size : TypeDoc → Nat
  | message _ _ fields => fieldSize fields + 1
  | enum .. => 1
  | ref _ => 1
  | map k v => k.size + v.size + 1
  | array t => t.size + 1
  | basic .. => 1

def fieldSize : List Field → Nat
  | [] => 0
  | .mk _ _ t :: fs => t.size + fieldSize fs

end

theorem fieldRefs_eq (fs : List Field) : fieldRefs fs = fs.flatMap (·.type.refs) := by
  induction fs with
  | nil => simp [fieldRefs]
  | cons f fs ih => cases f; simp [fieldRefs, ih, Field.type]

/-- The number of types written inside the types of a list. -/
def totalSize (ts : List TypeDoc) : Nat := ts.foldr (·.size + ·) 0

@[simp] theorem totalSize_cons (t : TypeDoc) (ts : List TypeDoc) :
    totalSize (t :: ts) = t.size + totalSize ts := rfl

@[simp] theorem totalSize_append (ts us : List TypeDoc) :
    totalSize (ts ++ us) = totalSize ts + totalSize us := by
  induction ts with
  | nil => simp [totalSize]
  | cons t ts ih => simp [ih, Nat.add_assoc]

theorem fieldSize_eq (fs : List Field) : fieldSize fs = totalSize (fs.map (·.type)) := by
  induction fs with
  | nil => rfl
  | cons f fs ih => cases f; simp [fieldSize, ih, Field.type]

end TypeDoc

/-- A method bound to HTTP. -/
structure Endpoint where
  name : String
  description : String
  /-- The HTTP verb. -/
  method : String
  path : String
  /-- The wire name of the field sent as the body, `*` for the whole request, or none. -/
  bodyField : Option String
  request : TypeDoc
  response : TypeDoc
  streamingRequest : Bool
  streamingResponse : Bool

structure Service where
  name : String
  description : String
  endpoints : List Endpoint

/-- The documentation of one file. -/
structure Package where
  /-- The name to show, which need not be unique. -/
  name : String
  id : String
  description : String
  services : List Service
  /-- The declared types by their unqualified names, those declared in messages among them. -/
  types : KeyMap TypeDoc

namespace Package

def endpoints (p : Package) : List Endpoint := p.services.flatMap (·.endpoints)

/-- The requests and responses of a package in order: where a reader starts. -/
def roots (p : Package) : List TypeDoc := p.endpoints.flatMap fun e => [e.request, e.response]

/-- The full names of the package's types. -/
def names (p : Package) : List String := p.types.keys.map (Name.qualify p.id)

/-- The names of all references a package holds: in its types by key, then in its endpoints. -/
def refs (p : Package) : List String :=
  p.types.values.flatMap (·.refs) ++ p.roots.flatMap (·.refs)

end Package

/-- The packages of one section with what introduces them: the content of one output file. -/
structure Chapter where
  name : String
  preamble : String
  /-- Readers show chapters of lower weight first. -/
  weight : Int64
  packages : List Package

end SchemaDocs.Doc
