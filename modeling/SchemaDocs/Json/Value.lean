import SchemaDocs.Decimal

/-!
# JSON values

A value as a text states it: the members of an object stay in order and may repeat, integers have
any size, and other numbers keep their spelling. A string literal can spell half of a surrogate
pair; it is then grammatical but denotes no text.
-/

namespace SchemaDocs.Json

inductive Value where
  | null
  | bool (b : Bool)
  | int (n : Int)
  /-- A number with a fraction or an exponent, or a negative zero, as spelled. -/
  | real (spelling : List Char)
  /-- A string; `none` when its literal denotes no text. -/
  | string (s : Option String)
  | array (items : List Value)
  | object (members : List (Option String × Value))

namespace Value

instance : Inhabited Value := ⟨.null⟩

def text (s : String) : Value := .string (some s)

/-- An object with the given members. -/
def record (members : List (String × Value)) : Value :=
  .object (members.map fun m => (some m.1, m.2))

/-- A value that may be absent, with null for its absence. -/
def optional {α : Type} (f : α → Value) : Option α → Value
  | none => .null
  | some a => f a

end Value

/-- Mantissa and exponent of a spelled number, its sign aside. -/
def magnitude (spelling : List Char) : Nat × Int :=
  let unsigned := spelling.filter fun c => c != '-' && c != '+'
  let isMark (c : Char) := c == 'e' || c == 'E'
  let digits := unsigned.takeWhile fun c => !isMark c
  let power := Nat.ofDigitChars 10 ((unsigned.dropWhile fun c => !isMark c).drop 1) 0
  let places := ((digits.dropWhile (· != '.')).drop 1).length
  let below := (spelling.dropWhile fun c => !isMark c).contains '-'
  (Nat.ofDigitChars 10 (digits.filter (· != '.')) 0,
    (if below then -(power : Int) else power) - places)

namespace Value

mutual
/-- Whether a value can be taken in whole: it opens at most `depth` containers inside each other,
its strings denote texts, and its numbers are below infinity. -/
def isLegible (depth : Nat) : Value → Bool
  | null => true
  | bool _ => true
  | int n => Decimal.isFinite n.natAbs 0
  | real spelling => Decimal.isFinite (magnitude spelling).1 (magnitude spelling).2
  | string s => s.isSome
  | array items => depth != 0 && areLegible (depth - 1) items
  | object members => depth != 0 && areMembersLegible (depth - 1) members

def areLegible (depth : Nat) : List Value → Bool
  | [] => true
  | v :: vs => v.isLegible depth && areLegible depth vs

def areMembersLegible (depth : Nat) : List (Option String × Value) → Bool
  | [] => true
  | (key, v) :: ms => key.isSome && v.isLegible depth && areMembersLegible depth ms
end

end Value
end SchemaDocs.Json
