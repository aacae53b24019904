import SchemaDocs.Text.Strip
import SchemaDocs.Text.Uppercase

/-!
# Names

Full names `package.name`, the segments of a dotted name, and the default wire name of a field.
-/

namespace SchemaDocs.Name

/-- The full name of `name` in `package`; in the package without a name, the name itself. -/
def qualify (package name : String) : String :=
  if package = "" then name else package ++ "." ++ name

/-- What is left of a full name without its package, when it starts with that package and a dot. -/
def strip? (package name : String) : Option String :=
  if package = "" then some name
  else (Text.strip? (package.toList ++ ['.']) name.toList).map String.ofList

/-- What follows the last dot. -/
def lastSegment (name : String) : String :=
  String.ofList ((name.toList.splitOn '.').getLastD [])

/-- Whether `name` ends in a dot and then `member`. -/
def endsIn (name member : String) : Bool :=
  ('.' :: member.toList).isSuffixOf name.toList

/-- Drops every underscore and raises the character after it; `raise` tells that one came before. -/
def camel (raise : Bool) : List Char → List Char
  | [] => []
  | c :: cs =>
    if c = '_' then camel true cs
    else (if raise then Text.upper c else [c]) ++ camel false cs

/-- The name of a field in documents when none is declared: `foo_bar` becomes `fooBar`. -/
def wire (name : String) : String := String.ofList (camel false name.toList)

theorem strip?_eq_some_iff {package name rest : String} :
    strip? package name = some rest ↔ qualify package rest = name := by
  by_cases h : package = ""
  · simp [strip?, qualify, h, eq_comm]
  · simp only [strip?, qualify, h, if_false, Option.map_eq_some_iff, Text.strip?_eq_some_iff]
    constructor
    · rintro ⟨r, hr, rfl⟩
      rw [← String.toList_inj, hr]
      simp
    · rintro rfl
      exact ⟨rest.toList, by simp, String.ofList_toList⟩

@[simp] theorem strip?_qualify (package name : String) :
    strip? package (qualify package name) = some name :=
  strip?_eq_some_iff.2 rfl

end SchemaDocs.Name
