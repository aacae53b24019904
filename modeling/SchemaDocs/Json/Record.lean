import SchemaDocs.Json.Value

/-!
# Reading records

A record is an object of its fields, in any order and with keys of no meaning to it, or an array
of its fields in their order. A field may be required, optional (null stands for its absence) or
have a default. A reader counts the containers that may still open: a value in use that nests
deeper is refused, while what stands under a key of no meaning is never looked at.
-/

namespace SchemaDocs.Json

/-- Reads a value that may open the given number of containers inside each other. -/
abbrev Reader (α : Type) := Nat → Value → Option α

/-- The greatest nesting of containers in a document. -/
def maxDepth : Nat := 127

namespace Value

/-- The one value under `name` among the members; fails when there are two. -/
def member? (name : String) (members : List (Option String × Value)) : Option (Option Value) :=
  match members.filter (·.1 == some name) with
  | [] => some none
  | [m] => some (some m.2)
  | _ => none

/-- The fields of a record with the given field names, as far as they are there. -/
def fields? (names : List String) : Value → Option (List (Option Value))
  | .object members =>
    if members.all (·.1.isSome) then names.mapM (member? · members) else none
  | .array items =>
    if items.length ≤ names.length then
      some (items.map some ++ List.replicate (names.length - items.length) none)
    else none
  | _ => none

end Value

namespace Reader
variable {α : Type}

/-- A container: its contents may open one container less. -/
def enter (read : Reader α) : Reader α
  | 0, _ => none
  | depth + 1, v => read depth v

def text : Reader String
  | _, .string s => s
  | _, _ => none

def bool : Reader Bool
  | _, .bool b => some b
  | _, _ => none

/-- An integer of so many bits, with a sign. -/
def integer (bits : Nat) : Reader Int
  | _, .int n => if Decimal.fits bits n then some n else none
  | _, _ => none

def list (read : Reader α) : Reader (List α) :=
  enter fun depth v =>
    match v with
    | .array items => items.mapM (read depth)
    | _ => none

/-- A field that must be there. -/
def required (read : Reader α) (depth : Nat) : Option Value → Option α
  | none => none
  | some v => read depth v

/-- A field that may be left out, but not be null. -/
def orElse (value : α) (read : Reader α) (depth : Nat) : Option Value → Option α
  | none => some value
  | some v => read depth v

/-- A field that may be left out or be null. -/
def optional (read : Reader α) (depth : Nat) : Option Value → Option (Option α)
  | none => some none
  | some .null => some none
  | some v => (read depth v).map some

/-- A word from a fixed list: as a string, or as the only key of an object that holds null. -/
def word (read : String → Option α) : Reader α
  | _, .string (some s) => read s
  | _ + 1, .object [(some s, .null)] => read s
  | _, _ => none

end Reader
end SchemaDocs.Json
