import SchemaDocs.Decimal
import SchemaDocs.Toml.Quoted
import SchemaDocs.Toml.Value

/-!
# Numbers and dates of TOML

Digits may be parted by single underscores. Integers have 64 bits and a sign; a float must stay
below infinity unless it is negative or spelled out; dates must exist.
-/

namespace SchemaDocs.Toml

/-- The text after digits for which `p` holds, each but the first with one underscore before it or
none, and those digits. -/
def moreDigits (p : Char → Bool) : List Char → List Char × List Char
  | [] => ([], [])
  | '_' :: c :: s =>
    if p c then (c :: (moreDigits p s).1, (moreDigits p s).2) else ([], '_' :: c :: s)
  | c :: s => if p c then (c :: (moreDigits p s).1, (moreDigits p s).2) else ([], c :: s)

/-- At least one digit. -/
def digits? (p : Char → Bool) : List Char → Option (List Char × List Char)
  | [] => none
  | c :: s => if p c then some (c :: (moreDigits p s).1, (moreDigits p s).2) else none

/-- Digits without a zero before others. -/
def whole? : List Char → Option (List Char × List Char)
  | '0' :: s => some (['0'], s)
  | s => digits? Char.isDigit s

/-- A sign when there is one; a minus is kept. -/
def sign : List Char → List Char × List Char
  | '-' :: s => (['-'], s)
  | '+' :: s => ([], s)
  | s => ([], s)

/-- An integer that fits 64 bits. -/
def bounded (n : Int) (s : List Char) : Option (Value × List Char) :=
  if Decimal.fits 64 n then some (.integer n, s) else none

/-- An integer in the given base. -/
def based? (base : Nat) (s : List Char) : Option (Value × List Char) := do
  let inBase (c : Char) := ((hexValue? c).map (decide <| · < base)).getD false
  let (digits, s) ← digits? inBase s
  bounded ((digits.filterMap hexValue?).foldl (fun n d => base * n + d) 0 : Nat) s

def integer? : List Char → Option (Value × List Char)
  | '0' :: 'x' :: s => based? 16 s
  | '0' :: 'o' :: s => based? 8 s
  | '0' :: 'b' :: s => based? 2 s
  | s => do
    let (minus, s) := sign s
    let (digits, s) ← whole? s
    let n : Int := Nat.ofDigitChars 10 digits 0
    bounded (if minus = [] then n else -n) s

/-- A fraction, with its point. -/
def fraction? : List Char → Option (List Char × List Char)
  | '.' :: s => digits? Char.isDigit s
  | _ => none

/-- The value of an exponent. -/
def exponent? : List Char → Option (Int × List Char)
  | c :: s =>
    if c = 'e' ∨ c = 'E' then do
      let (digits, s') ← digits? Char.isDigit (sign s).2
      let n : Int := Nat.ofDigitChars 10 digits 0
      return (if (sign s).1 = [] then n else -n, s')
    else none
  | [] => none

/-- A float in digits: with a fraction, an exponent, or both. -/
def digitFloat? (s : List Char) : Option (Value × List Char) := do
  let (minus, s') := sign s
  let (whole, rest) ← whole? s'
  let (places, rest) := (fraction? rest).getD ([], rest)
  let (power, rest) ←
    if places = [] then exponent? rest else some ((exponent? rest).getD (0, rest))
  let mantissa := Nat.ofDigitChars 10 (whole ++ places) 0
  if minus = [] ∧ ¬ Decimal.isFinite mantissa (power - places.length) then none
  else some (.float (s.take (s.length - rest.length)), rest)

/-- Infinity or no number, spelled out. -/
def wordFloat? (s : List Char) : Option (Value × List Char) :=
  match (sign s).2 with
  | 'i' :: 'n' :: 'f' :: rest => some (.float (s.take (s.length - rest.length)), rest)
  | 'n' :: 'a' :: 'n' :: rest => some (.float (s.take (s.length - rest.length)), rest)
  | _ => none

/-- So many digits, whose value lies in a range. -/
def field? (width low high : Nat) (s : List Char) : Option (Nat × List Char) := do
  let digits := s.take width
  guard (digits.length = width ∧ digits.all Char.isDigit)
  let n := Nat.ofDigitChars 10 digits 0
  if low ≤ n ∧ n ≤ high then some (n, s.drop width) else none

def mark? (c : Char) : List Char → Option (List Char)
  | d :: s => if d = c then some s else none
  | [] => none

def daysIn (year month : Nat) : Nat :=
  if month = 2 then if year % 4 = 0 ∧ (year % 100 ≠ 0 ∨ year % 400 = 0) then 29 else 28
  else if month = 4 ∨ month = 6 ∨ month = 9 ∨ month = 11 then 30
  else 31

/-- What follows a date that exists. -/
def date? (s : List Char) : Option (List Char) := do
  let (year, s) ← field? 4 0 9999 s
  let (month, s) ← field? 2 1 12 (← mark? '-' s)
  let (_, s) ← field? 2 1 (daysIn year month) (← mark? '-' s)
  return s

/-- What follows a time of day, with any fraction of a second. -/
def time? (s : List Char) : Option (List Char) := do
  let (_, s) ← field? 2 0 23 s
  let (_, s) ← field? 2 0 59 (← mark? ':' s)
  let (_, s) ← field? 2 0 60 (← mark? ':' s)
  match s with
  | '.' :: s => if (s.takeWhile Char.isDigit) = [] then none else some (s.dropWhile Char.isDigit)
  | s => some s

/-- What follows an offset from universal time. -/
def offset? : List Char → Option (List Char)
  | 'Z' :: s => some s
  | 'z' :: s => some s
  | c :: s =>
    if c = '+' ∨ c = '-' then do
      let (_, s) ← field? 2 0 23 s
      let (_, s) ← field? 2 0 59 (← mark? ':' s)
      return s
    else none
  | [] => none

/-- What follows a time of day after the mark that joins it to a date. -/
def joinedTime? : List Char → Option (List Char)
  | c :: s => if c = 'T' ∨ c = 't' ∨ c = ' ' then time? s else none
  | [] => none

/-- A date, a time, or both. -/
def datetime? (s : List Char) : Option (Value × List Char) :=
  let rest? :=
    match date? s with
    | none => time? s
    | some rest =>
      match joinedTime? rest with
      | none => some rest
      | some rest => some ((offset? rest).getD rest)
  rest?.map fun rest => (.datetime (s.take (s.length - rest.length)), rest)

/-- A value that starts with a digit or a sign, or is one of the words for floats. -/
def number? (s : List Char) : Option (Value × List Char) :=
  (datetime? s).or <| (digitFloat? s).or <| (wordFloat? s).or <| integer? s

end SchemaDocs.Toml
