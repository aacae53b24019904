/-!
# String literals of JSON

Writing: a quotation mark, a backslash and a control character are escaped, all else stands for
itself. Reading: an escape may also spell one half of a surrogate pair; two matching halves in a
row are one character, and a half alone denotes nothing.
-/

namespace SchemaDocs.Json.Literal

def hexDigit (n : Nat) : Char :=
  if n < 10 then Char.ofNat (0x30 + n) else Char.ofNat (0x57 + n)

def hexValue? (c : Char) : Option Nat :=
  if c.isDigit then some (c.toNat - 0x30)
  else if 'a' ≤ c ∧ c ≤ 'f' then some (c.toNat - 0x57)
  else if 'A' ≤ c ∧ c ≤ 'F' then some (c.toNat - 0x37)
  else none

/-- How one character is written inside a literal. -/
def escape (c : Char) : List Char :=
  if c = '"' then ['\\', '"']
  else if c = '\\' then ['\\', '\\']
  else if c = '\x08' then ['\\', 'b']
  else if c = '\t' then ['\\', 't']
  else if c = '\n' then ['\\', 'n']
  else if c = '\x0c' then ['\\', 'f']
  else if c = '\r' then ['\\', 'r']
  else if c.toNat < 0x20 then
    ['\\', 'u', '0', '0', hexDigit (c.toNat / 16), hexDigit (c.toNat % 16)]
  else [c]

def quote (s : List Char) : List Char := '"' :: s.flatMap escape ++ ['"']

/-- What one character or one escape of a literal spells. -/
inductive Piece where
  | char (c : Char)
  | half (code : Nat)

/-- The piece that a four-digit escape spells. -/
def Piece.ofCode (code : Nat) : Piece :=
  if 0xD800 ≤ code ∧ code < 0xE000 then .half code else .char (Char.ofNat code)

/-- The character of a one-letter escape. -/
def unescape? : Char → Option Char
  | '"' => some '"'
  | '\\' => some '\\'
  | '/' => some '/'
  | 'b' => some '\x08'
  | 'f' => some '\x0c'
  | 'n' => some '\n'
  | 'r' => some '\r'
  | 't' => some '\t'
  | _ => none

def code? (a b c d : Char) : Option Nat := do
  let a ← hexValue? a
  let b ← hexValue? b
  let c ← hexValue? c
  let d ← hexValue? d
  return ((a * 16 + b) * 16 + c) * 16 + d

/-- The pieces up to the closing quotation mark, and the rest of the text. -/
def pieces? : List Char → Option (List Piece × List Char)
  | [] => none
  | '"' :: rest => some ([], rest)
  | '\\' :: 'u' :: a :: b :: c :: d :: rest => do
    let code ← code? a b c d
    let (ps, rest) ← pieces? rest
    return (.ofCode code :: ps, rest)
  | '\\' :: c :: rest => do
    let c ← unescape? c
    let (ps, rest) ← pieces? rest
    return (.char c :: ps, rest)
  | c :: rest =>
    if c = '\\' ∨ c.toNat < 0x20 then none
    else do
      let (ps, rest) ← pieces? rest
      return (.char c :: ps, rest)

/-- The text that pieces spell, when every half has its partner. -/
def chars? : List Piece → Option (List Char)
  | [] => some []
  | .char c :: ps => (chars? ps).map (c :: ·)
  | .half a :: .half b :: ps =>
    if a < 0xDC00 ∧ 0xDC00 ≤ b then
      (chars? ps).map (Char.ofNat (0x10000 + (a - 0xD800) * 0x400 + (b - 0xDC00)) :: ·)
    else none
  | .half _ :: _ => none

theorem length_of_pieces? {ps : List Piece} {s rest : List Char}
    (h : pieces? s = some (ps, rest)) : rest.length < s.length := by
  fun_induction pieces? s generalizing ps with
  | case1 => simp at h
  | case2 => simp_all
  | case3 a b c d r ih =>
    simp only [Option.bind_eq_bind, Option.bind_eq_some_iff] at h
    obtain ⟨_, _, ⟨ps, r⟩, hr, h⟩ := h
    cases h
    exact Nat.lt_of_lt_of_le (ih hr) (by simp only [List.length_cons]; omega)
  | case4 c r _ ih =>
    simp only [Option.bind_eq_bind, Option.bind_eq_some_iff] at h
    obtain ⟨_, _, ⟨ps, r⟩, hr, h⟩ := h
    cases h
    exact Nat.lt_of_lt_of_le (ih hr) (by simp only [List.length_cons]; omega)
  | case5 => simp at h
  | case6 c r _ _ _ _ ih =>
    simp only [Option.bind_eq_bind, Option.bind_eq_some_iff] at h
    obtain ⟨⟨ps, r⟩, hr, h⟩ := h
    cases h
    exact Nat.lt_of_lt_of_le (ih hr) (by simp only [List.length_cons]; omega)

end SchemaDocs.Json.Literal
