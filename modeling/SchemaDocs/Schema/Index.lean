import SchemaDocs.Schema.Basic

/-!
# Declarations of a schema

The messages and enumerations of a schema in document order, those inside messages among them, and
their look-up by full name. All declarations of a package share one name space, whatever messages
enclose them; entry messages of map fields have no place in it.
-/

namespace SchemaDocs.Schema

inductive Declaration where
  | message (m : Message)
  | enum (e : Enum)

namespace Declaration

def name : Declaration → String
  | message m => m.name
  | enum e => e.name

def fullName : Declaration → String
  | message m => m.fullName
  | enum e => e.fullName

/-- Whether the declaration stands for a map field only. -/
def isMapEntry : Declaration → Bool
  | message m => m.isMapEntry
  | enum _ => false

end Declaration

mutual

/-- A message, its enumerations, and what its messages declare. -/
def Message.declarations : Message → List Declaration
  | m@⟨_, _, _, _, messages, enums, _⟩ =>
    .message m :: enums.map .enum ++ declarationsOf messages

def declarationsOf : List Message → List Declaration
  | [] => []
  | m :: ms => m.declarations ++ declarationsOf ms

/-- The same without entry messages and what stands inside them. -/
def Message.documented : Message → List Declaration
  | m@⟨_, _, _, _, messages, enums, isMapEntry⟩ =>
    if isMapEntry then [] else .message m :: enums.map .enum ++ documentedOf messages

def documentedOf : List Message → List Declaration
  | [] => []
  | m :: ms => m.documented ++ documentedOf ms

end

def File.declarations (f : File) : List Declaration :=
  f.enums.map .enum ++ declarationsOf f.messages

/-- The declarations of a file that are documented. -/
def File.documented (f : File) : List Declaration := f.enums.map .enum ++ documentedOf f.messages

/-- A declaration with the package of its file. -/
structure Declared where
  package : String
  declaration : Declaration

namespace Declared

/-- The name under which the declaration is documented: enclosing messages do not count. -/
def flatName (d : Declared) : String := Name.qualify d.package d.declaration.name

/-- The place that a declaration takes in its package, if any. -/
def slot? (d : Declared) : Option (String × String) :=
  if d.declaration.isMapEntry then none else some (d.package, d.declaration.name)

end Declared

/-- All declarations, file by file. -/
def declared (s : Schema) : List Declared :=
  s.files.flatMap fun f => f.declarations.map (⟨f.package, ·⟩)

/-- The first element that occurs before, or in `seen`. -/
def firstRepeat? {α : Type} [DecidableEq α] (seen : List α) : List α → Option α
  | [] => none
  | a :: as => if a ∈ seen then some a else firstRepeat? (a :: seen) as

/-- The first package and name that are declared twice. -/
def clash? (s : Schema) : Option (String × String) :=
  firstRepeat? [] (s.declared.filterMap (·.slot?))

/-- The declarations by full name. -/
structure Index where
  declared : List Declared

def index (s : Schema) : Index := ⟨s.declared⟩

namespace Index

/-- The last declaration with the given full name. -/
def find? (ix : Index) (fullName : String) : Option Declared :=
  ix.declared.reverse.find? (·.declaration.fullName = fullName)

def message? (ix : Index) (fullName : String) : Option Message :=
  match ix.find? fullName with
  | some ⟨_, .message m⟩ => some m
  | _ => none

/-- The documented name of what a full name means; a name that nothing declares stays as it is. -/
def flatName (ix : Index) (fullName : String) : String :=
  match ix.find? fullName with
  | some d => d.flatName
  | none => fullName

end Index

/-- The files in the order of their names, which decides the order of packages; files of one name
stay in document order. -/
def ordered (s : Schema) : List File := s.files.mergeSort fun a b => a.name ≤ b.name

end SchemaDocs.Schema
