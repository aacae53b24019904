import SchemaDocs.Json.Literal
import SchemaDocs.Json.Value

/-!
# Texts of JSON values

The compact text, without white space, and the pretty text: two spaces for each level, one member
or item a line, and `[]` and `\x7b\x7d` for what is empty. A literal that denotes no text is
printed as an empty one.
-/

namespace SchemaDocs.Json.Value

def literal (s : Option String) : List Char := Literal.quote (s.getD "").toList

/-- The text of a value that is no container. -/
def scalar : Value → List Char
  | bool true => ['t', 'r', 'u', 'e']
  | bool false => ['f', 'a', 'l', 's', 'e']
  | int n => Decimal.ofInt n
  | real spelling => spelling
  | string s => literal s
  | _ => ['n', 'u', 'l', 'l']

mutual
/-- The text without white space. -/
def compact : Value → List Char
  | array [] => ['[', ']']
  | array (v :: vs) => '[' :: v.compact ++ compactItems vs
  | object [] => ['\x7b', '\x7d']
  | object ((k, v) :: ms) => '\x7b' :: literal k ++ ':' :: v.compact ++ compactMembers ms
  | v => v.scalar

/-- The items after the first, and the end of the array. -/
def compactItems : List Value → List Char
  | [] => [']']
  | v :: vs => ',' :: v.compact ++ compactItems vs

/-- The members after the first, and the end of the object. -/
def compactMembers : List (Option String × Value) → List Char
  | [] => ['\x7d']
  | (k, v) :: ms => ',' :: literal k ++ ':' :: v.compact ++ compactMembers ms
end

/-- A new line at the given level. -/
def newline (level : Nat) : List Char := '\n' :: List.replicate (2 * level) ' '

mutual
/-- The text with one item or member a line, for a value that starts at the given level. -/
def prettyAt (level : Nat) : Value → List Char
  | array [] => ['[', ']']
  | array (v :: vs) =>
    '[' :: newline (level + 1) ++ v.prettyAt (level + 1) ++ prettyItems level vs
  | object [] => ['\x7b', '\x7d']
  | object ((k, v) :: ms) =>
    '\x7b' :: newline (level + 1) ++ literal k ++ ':' :: ' ' :: v.prettyAt (level + 1) ++
      prettyMembers level ms
  | v => v.scalar

def prettyItems (level : Nat) : List Value → List Char
  | [] => newline level ++ [']']
  | v :: vs => ',' :: newline (level + 1) ++ v.prettyAt (level + 1) ++ prettyItems level vs

def prettyMembers (level : Nat) : List (Option String × Value) → List Char
  | [] => newline level ++ ['\x7d']
  | (k, v) :: ms =>
    ',' :: newline (level + 1) ++ literal k ++ ':' :: ' ' :: v.prettyAt (level + 1) ++
      prettyMembers level ms
end

def pretty (v : Value) : List Char := v.prettyAt 0

end SchemaDocs.Json.Value
