/-!
# Blanks, comments and ends of lines in TOML

What may stand around keys and values. Control characters other than the tab stand nowhere.
-/

namespace SchemaDocs.Toml

def isBlank (c : Char) : Bool := c == ' ' || c == '\t'

/-- The characters of comments: no control character but the tab. -/
def isPlain (c : Char) : Bool := c == '\t' || (0x20 ≤ c.toNat && c.toNat != 0x7F)

def skipBlank (s : List Char) : List Char := s.dropWhile isBlank

/-- What follows the end of a line, a line feed with or without a carriage return before it. -/
def newline? : List Char → Option (List Char)
  | '\n' :: s => some s
  | '\r' :: '\n' :: s => some s
  | _ => none

/-- What follows the rest of a line on which only blanks and a comment are left. -/
def endOfLine? (s : List Char) : Option (List Char) :=
  let s :=
    match skipBlank s with
    | '#' :: s => s.dropWhile isPlain
    | s => s
  match s with
  | [] => some []
  | s => newline? s

/-- What follows blanks, comments and ends of lines, as they stand inside an array; `inside` tells
that a comment is open. -/
def skipLines? (inside : Bool) : List Char → Option (List Char)
  | [] => if inside then none else some []
  | '\n' :: s => skipLines? false s
  | '\r' :: '\n' :: s => skipLines? false s
  | c :: s =>
    if inside then if isPlain c then skipLines? true s else none
    else if isBlank c then skipLines? false s
    else if c = '#' then skipLines? true s
    else if c = '\r' then none
    else some (c :: s)

/-- What follows blanks and ends of lines, as they stand after a backslash that ends a line. -/
def skipBlankLines : List Char → List Char
  | '\n' :: s => skipBlankLines s
  | '\r' :: '\n' :: s => skipBlankLines s
  | c :: s => if isBlank c then skipBlankLines s else c :: s
  | [] => []

theorem length_skipBlankLines_le (s : List Char) : (skipBlankLines s).length ≤ s.length := by
  fun_induction skipBlankLines s with
  | case1 s ih => exact Nat.le_succ_of_le ih
  | case2 s ih => exact Nat.le_succ_of_le (Nat.le_succ_of_le ih)
  | case3 c s _ _ _ ih => exact Nat.le_succ_of_le ih
  | case4 => exact Nat.le_refl _
  | case5 => exact Nat.le_refl _

theorem length_skipBlank_le (s : List Char) : (skipBlank s).length ≤ s.length :=
  (List.dropWhile_sublist _).length_le

theorem length_of_newline? {s rest : List Char} (h : newline? s = some rest) :
    rest.length < s.length := by
  unfold newline? at h
  split at h
  · cases h
    exact Nat.lt_succ_self _
  · cases h
    exact Nat.lt_succ_of_lt (Nat.lt_succ_self _)
  · simp at h

end SchemaDocs.Toml
