import SchemaDocs.Json.Print

/-!
# Texts printed in pieces

A printer that walks through a value hands its text over in pieces: marks, line breaks, steps of
indentation, and literals character by character. Put together they are the pretty text.
-/

namespace SchemaDocs.Json

namespace Value

def literalPieces (s : Option String) : List (List Char) :=
  ['"'] :: (s.getD "").toList.map Literal.escape ++ [['"']]

/-- The line break after a mark, and the indentation of the line that follows. -/
def breakPieces (mark : List Char) (level : Nat) : List (List Char) :=
  (mark ++ ['\n']) :: List.replicate level [' ', ' ']

mutual
/-- The pieces of the pretty text of a value that starts at the given level. -/
def piecesAt (level : Nat) : Value → List (List Char)
  | string s => literalPieces s
  | array [] => [['['], [']']]
  | array (v :: vs) =>
    ['['] :: breakPieces [] (level + 1) ++ v.piecesAt (level + 1) ++ itemPieces level vs
  | object [] => [['\x7b'], ['\x7d']]
  | object ((k, v) :: ms) =>
    ['\x7b'] :: breakPieces [] (level + 1) ++ literalPieces k ++ [':', ' '] ::
      v.piecesAt (level + 1) ++ memberPieces level ms
  | v => [v.scalar]

def itemPieces (level : Nat) : List Value → List (List Char)
  | [] => breakPieces [] level ++ [[']']]
  | v :: vs => breakPieces [','] (level + 1) ++ v.piecesAt (level + 1) ++ itemPieces level vs

def memberPieces (level : Nat) : List (Option String × Value) → List (List Char)
  | [] => breakPieces [] level ++ [['\x7d']]
  | (k, v) :: ms =>
    breakPieces [','] (level + 1) ++ literalPieces k ++ [':', ' '] :: v.piecesAt (level + 1) ++
      memberPieces level ms
end

@[simp] theorem flatten_literalPieces (s : Option String) :
    (literalPieces s).flatten = literal s := by
  simp [literalPieces, literal, Literal.quote, List.flatMap_def]

@[simp] theorem flatten_breakPieces (mark : List Char) (level : Nat) :
    (breakPieces mark level).flatten = mark ++ newline level := by
  have hindent : (List.replicate level [' ', ' ']).flatten = List.replicate (2 * level) ' ' := by
    induction level with
    | zero => rfl
    | succ level ih => rw [List.replicate_succ, List.flatten_cons, ih]; rfl
  simp [breakPieces, newline, hindent]

mutual

private theorem flatten_piecesAt : ∀ (level : Nat) (v : Value),
    (v.piecesAt level).flatten = v.prettyAt level
  | _, null | _, bool _ | _, int _ | _, real _ => by simp [piecesAt, prettyAt]
  | _, string s => by simp [piecesAt, prettyAt, scalar]
  | _, array [] | _, object [] => rfl
  | level, array (v :: vs) => by
    simp [piecesAt, prettyAt, flatten_piecesAt (level + 1) v, flatten_itemPieces level vs]
  | level, object ((k, v) :: ms) => by
    simp [piecesAt, prettyAt, flatten_piecesAt (level + 1) v, flatten_memberPieces level ms]

private theorem flatten_itemPieces : ∀ (level : Nat) (vs : List Value),
    (itemPieces level vs).flatten = prettyItems level vs
  | level, [] => by simp [itemPieces, prettyItems]
  | level, v :: vs => by
    simp [itemPieces, prettyItems, flatten_piecesAt (level + 1) v, flatten_itemPieces level vs]

private theorem flatten_memberPieces : ∀ (level : Nat) (ms : List (Option String × Value)),
    (memberPieces level ms).flatten = prettyMembers level ms
  | level, [] => by simp [memberPieces, prettyMembers]
  | level, (k, v) :: ms => by
    simp [memberPieces, prettyMembers, flatten_piecesAt (level + 1) v,
      flatten_memberPieces level ms]

end

/-- The pieces of the pretty text. -/
def pieces (v : Value) : List (List Char) := v.piecesAt 0

private theorem flatten_pieces (v : Value) : v.pieces.flatten = v.pretty := flatten_piecesAt 0 v

end Value

/-- A way to hand the pretty text of each value over in pieces. -/
structure Printer where
  pieces : Value → List (List Char)
  flatten_pieces : ∀ v, (pieces v).flatten = v.pretty

/-- The printer that walks through a value. -/
def Printer.walking : Printer := ⟨Value.pieces, Value.flatten_pieces⟩

end SchemaDocs.Json
