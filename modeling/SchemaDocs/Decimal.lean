/-!
# Decimal numerals

Reading and writing integers in base ten, and the least magnitude that a 64-bit binary floating
point number cannot hold.
-/

namespace SchemaDocs.Decimal

/-- The value of a non-empty row of ASCII digits. -/
def nat? (s : List Char) : Option Nat :=
  if s ≠ [] ∧ s.all Char.isDigit then some (Nat.ofDigitChars 10 s 0) else none

/-- The value of a row of digits after at most one sign. -/
def signed? : List Char → Option Int
  | '-' :: s => (nat? s).map fun n => -(n : Int)
  | '+' :: s => (nat? s).map Int.ofNat
  | s => (nat? s).map Int.ofNat

def ofNat (n : Nat) : List Char := Nat.toDigits 10 n

/-- The shortest numeral of an integer, with a sign only below zero. -/
def ofInt : Int → List Char
  | .ofNat n => ofNat n
  | .negSucc n => '-' :: ofNat (n + 1)

/-- The integers of a two's complement word. -/
def fits (bits : Nat) (n : Int) : Bool :=
  -(Nat.pow 2 (bits - 1)) ≤ n && n < Nat.pow 2 (bits - 1)

/-- Half a unit above the greatest finite number of the 64-bit binary format: from here on a
magnitude rounds to infinity. -/
def overflow : Nat := Nat.pow 2 1024 - Nat.pow 2 970

/-- Whether `mantissa · 10 ^ exponent` stays below `overflow`; the number of digits decides all
cases in which the power would be huge. -/
def isFinite (mantissa : Nat) (exponent : Int) : Bool :=
  let size : Int := (ofNat mantissa).length + exponent
  if mantissa = 0 ∨ size < 300 then true
  else if size > 320 then false
  else if exponent < 0 then mantissa < overflow * Nat.pow 10 exponent.natAbs
  else mantissa * Nat.pow 10 exponent.natAbs < overflow

end SchemaDocs.Decimal
