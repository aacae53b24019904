import SchemaDocs.Text.Strip
import SchemaDocs.Json.Literal
import SchemaDocs.Json.Value

/-!
# Tokens of JSON

The marks, literals, words and numbers of a text. Reading one takes at least one character.
-/

namespace SchemaDocs.Json

inductive Token where
  | arrayOpen
  | arrayClose
  | objectOpen
  | objectClose
  | comma
  | colon
  /-- A string literal; `none` when it denotes no text. -/
  | string (s : Option String)
  /-- A word or a number. -/
  | atom (v : Value)

namespace Token

/-- The white space between tokens. -/
def isSpace (c : Char) : Bool := c == ' ' || c == '\n' || c == '\t' || c == '\r'

/-- A fraction when there is one. -/
def fraction? : List Char → Option (List Char × List Char)
  | '.' :: s =>
    if s.takeWhile Char.isDigit = [] then none
    else some ('.' :: s.takeWhile Char.isDigit, s.dropWhile Char.isDigit)
  | s => some ([], s)

/-- The sign of an exponent when there is one. -/
def sign : List Char → List Char × List Char
  | '-' :: s => (['-'], s)
  | '+' :: s => (['+'], s)
  | s => ([], s)

/-- An exponent when there is one. -/
def exponent? : List Char → Option (List Char × List Char)
  | [] => some ([], [])
  | c :: s =>
    if c = 'e' ∨ c = 'E' then
      if (sign s).2.takeWhile Char.isDigit = [] then none
      else some (c :: (sign s).1 ++ (sign s).2.takeWhile Char.isDigit,
        (sign s).2.dropWhile Char.isDigit)
    else some ([], c :: s)

/-- A number without its sign: no zero before another digit, and a digit on both sides of the
point. -/
def unsigned? (negative : Bool) (s : List Char) : Option (Value × List Char) := do
  let digits := s.takeWhile Char.isDigit
  guard (digits ≠ [] ∧ (digits.head? = some '0' → digits.length = 1))
  let (fraction, s) ← fraction? (s.dropWhile Char.isDigit)
  let (exponent, s) ← exponent? s
  let n := Nat.ofDigitChars 10 digits 0
  let minus := if negative then ['-'] else []
  if fraction = [] ∧ exponent = [] ∧ ¬ (negative ∧ n = 0) then
    return (.int (if negative then -(n : Int) else n), s)
  else
    return (.real (minus ++ digits ++ fraction ++ exponent), s)

def number? : List Char → Option (Value × List Char)
  | '-' :: s => unsigned? true s
  | s => unsigned? false s

/-- The three words. -/
def word? (s : List Char) : Option (Value × List Char) :=
  ((Text.strip? ['n', 'u', 'l', 'l'] s).map (.null, ·)).or <|
  ((Text.strip? ['t', 'r', 'u', 'e'] s).map (.bool true, ·)).or <|
  (Text.strip? ['f', 'a', 'l', 's', 'e'] s).map (.bool false, ·)

/-- The token at the start of a text, and the rest of the text. -/
def next? : List Char → Option (Token × List Char)
  | '[' :: s => some (.arrayOpen, s)
  | ']' :: s => some (.arrayClose, s)
  | '\x7b' :: s => some (.objectOpen, s)
  | '\x7d' :: s => some (.objectClose, s)
  | ',' :: s => some (.comma, s)
  | ':' :: s => some (.colon, s)
  | '"' :: s => (Literal.pieces? s).map fun (ps, rest) =>
      (.string ((Literal.chars? ps).map String.ofList), rest)
  | s => ((word? s).or (number? s)).map fun (v, rest) => (.atom v, rest)

theorem length_dropWhile_le {α : Type} (p : α → Bool) (s : List α) :
    (s.dropWhile p).length ≤ s.length := (List.dropWhile_sublist p).length_le

theorem length_of_fraction? {s d rest : List Char} (h : fraction? s = some (d, rest)) :
    rest.length ≤ s.length := by
  unfold fraction? at h
  split at h
  · split at h
    · simp at h
    · cases h
      exact Nat.le_succ_of_le (length_dropWhile_le ..)
  · cases h
    exact Nat.le_refl _

theorem length_sign_le (s : List Char) : (sign s).2.length ≤ s.length := by
  unfold sign
  split <;> simp

theorem length_of_exponent? {s d rest : List Char} (h : exponent? s = some (d, rest)) :
    rest.length ≤ s.length := by
  unfold exponent? at h
  split at h
  · cases h
    exact Nat.le_refl _
  · split at h
    · split at h
      · simp at h
      · cases h
        exact Nat.le_succ_of_le (Nat.le_trans (length_dropWhile_le ..) (length_sign_le _))
    · cases h
      exact Nat.le_refl _

theorem length_dropWhile_lt {α : Type} {p : α → Bool} {s : List α} (h : s.takeWhile p ≠ []) :
    (s.dropWhile p).length < s.length := by
  cases s with
  | nil => simp at h
  | cons c s =>
    by_cases hc : p c = true
    · simpa [List.dropWhile_cons, hc] using Nat.lt_succ_of_le (length_dropWhile_le p s)
    · simp [hc] at h

theorem length_of_unsigned? {negative : Bool} {v : Value} {s rest : List Char}
    (h : unsigned? negative s = some (v, rest)) : rest.length < s.length := by
  obtain ⟨_, hg, h⟩ := Option.bind_eq_some_iff.mp h
  obtain ⟨⟨f, r⟩, hf, h⟩ := Option.bind_eq_some_iff.mp h
  obtain ⟨⟨e, t⟩, he, h⟩ := Option.bind_eq_some_iff.mp h
  have hd : s.takeWhile Char.isDigit ≠ [] := by
    intro hd
    rw [hd] at hg
    cases hg
  have ht : rest = t := by
    dsimp only at h
    split at h <;> (cases h; rfl)
  subst ht
  exact Nat.lt_of_le_of_lt (length_of_exponent? he)
    (Nat.lt_of_le_of_lt (length_of_fraction? hf) (length_dropWhile_lt hd))

theorem length_of_number? {v : Value} {s rest : List Char} (h : number? s = some (v, rest)) :
    rest.length < s.length := by
  unfold number? at h
  split at h
  · exact Nat.lt_succ_of_lt (length_of_unsigned? h)
  · exact length_of_unsigned? h

theorem length_of_word? {v : Value} {s rest : List Char} (h : word? s = some (v, rest)) :
    rest.length < s.length := by
  simp only [word?, Option.or_eq_some_iff, Option.map_eq_some_iff, Prod.mk.injEq,
    Option.map_eq_none_iff] at h
  rcases h with ⟨_, hr, _, rfl⟩ | ⟨_, ⟨_, hr, _, rfl⟩ | ⟨_, _, hr, _, rfl⟩⟩ <;>
    (rw [Text.length_of_strip? hr]; simp)

theorem length_of_next? {t : Token} {s rest : List Char} (h : next? s = some (t, rest)) :
    rest.length < s.length := by
  unfold next? at h
  split at h
  case h_7 =>
    obtain ⟨⟨ps, r⟩, hr, h⟩ := Option.map_eq_some_iff.1 h
    cases h
    exact Nat.lt_succ_of_lt (Literal.length_of_pieces? hr)
  case h_8 =>
    obtain ⟨⟨v, r⟩, hr, h⟩ := Option.map_eq_some_iff.1 h
    cases h
    rcases Option.or_eq_some_iff.1 hr with hr | ⟨_, hr⟩
    · exact length_of_word? hr
    · exact length_of_number? hr
  all_goals (cases h; simp)

end Token
end SchemaDocs.Json
