import Mathlib.Data.List.Basic
import SchemaDocs.Json.Print
import SchemaDocs.Json.Token

/-!
# Tokens of printed values

What a printer writes for a string, a number or a word is read back as one token. A number also
needs that what follows cannot continue it. Main statements: `next?_quote`, `next?_ofInt`.
-/

namespace SchemaDocs.Json

/-! ## String literals -/

namespace Literal

private theorem hexValue?_hexDigit : ∀ n < 16, hexValue? (hexDigit n) = some n := by decide

private theorem pieces?_plain {c : Char} (rest : List Char) (hquote : c ≠ '"') (hslash : c ≠ '\\')
    (hcontrol : ¬ c.toNat < 0x20) :
    pieces? (c :: rest) = (pieces? rest).map fun p => (.char c :: p.1, p.2) := by
  rw [pieces?.eq_def]
  split
  · rename_i h
    cases h
  · rename_i h
    cases h
    exact absurd rfl hquote
  · rename_i h
    cases h
    exact absurd rfl hslash
  · rename_i h
    cases h
    exact absurd rfl hslash
  · rename_i h
    cases h
    rw [if_neg (by simp [hslash, hcontrol])]
    cases pieces? rest <;> rfl

private theorem pieces?_letter {letter c : Char} (rest : List Char) (hu : letter ≠ 'u')
    (h : unescape? letter = some c) :
    pieces? ('\\' :: letter :: rest) = (pieces? rest).map fun p => (.char c :: p.1, p.2) := by
  rw [pieces?.eq_def]
  split
  · rename_i heq
    cases heq
  · rename_i heq
    cases heq
  · rename_i heq
    cases heq
    exact absurd rfl hu
  · rename_i heq
    cases heq
    rw [h]
    cases pieces? rest <;> rfl
  · rename_i hletter heq
    cases heq
    exact absurd rfl (hletter letter rest rfl)

private theorem pieces?_code {n : Nat} (rest : List Char) (h : n < 0x20) :
    pieces? ('\\' :: 'u' :: '0' :: '0' :: hexDigit (n / 16) :: hexDigit (n % 16) :: rest) =
      (pieces? rest).map fun p => (.char (Char.ofNat n) :: p.1, p.2) := by
  have hzero : hexValue? '0' = some 0 := rfl
  have hcode : code? '0' '0' (hexDigit (n / 16)) (hexDigit (n % 16)) = some n := by
    rw [code?, hzero, hexValue?_hexDigit _ (by omega), hexValue?_hexDigit _ (by omega)]
    simp only [Option.bind_eq_bind, Option.bind_some, Option.pure_def, Option.some.injEq]
    omega
  have hpiece : Piece.ofCode n = .char (Char.ofNat n) := if_neg (by omega)
  rw [pieces?, hcode]
  simp only [Option.bind_eq_bind, Option.bind_some, hpiece]
  cases pieces? rest <;> rfl

private theorem pieces?_escape (c : Char) (rest : List Char) :
    pieces? (escape c ++ rest) = (pieces? rest).map fun p => (.char c :: p.1, p.2) := by
  by_cases hquote : c = '"'
  · subst hquote
    exact pieces?_letter rest (by decide) rfl
  by_cases hslash : c = '\\'
  · subst hslash
    exact pieces?_letter rest (by decide) rfl
  by_cases hb : c = '\x08'
  · subst hb
    exact pieces?_letter rest (by decide) rfl
  by_cases ht : c = '\t'
  · subst ht
    exact pieces?_letter rest (by decide) rfl
  by_cases hn : c = '\n'
  · subst hn
    exact pieces?_letter rest (by decide) rfl
  by_cases hf : c = '\x0c'
  · subst hf
    exact pieces?_letter rest (by decide) rfl
  by_cases hr : c = '\r'
  · subst hr
    exact pieces?_letter rest (by decide) rfl
  rw [escape, if_neg hquote, if_neg hslash, if_neg hb, if_neg ht, if_neg hn, if_neg hf, if_neg hr]
  split
  · rename_i hcontrol
    have hcode := pieces?_code rest hcontrol
    rwa [Char.ofNat_toNat] at hcode
  · rename_i hcontrol
    exact pieces?_plain rest hquote hslash hcontrol

private theorem pieces?_quote (s rest : List Char) :
    pieces? (s.flatMap escape ++ '"' :: rest) = some (s.map .char, rest) := by
  induction s with
  | nil => simp [pieces?]
  | cons c s ih =>
    rw [List.flatMap_cons, List.append_assoc, pieces?_escape, ih]
    rfl

private theorem chars?_map_char (s : List Char) : chars? (s.map .char) = some s := by
  induction s with
  | nil => rfl
  | cons c s ih => simp [chars?, ih]

end Literal

namespace Token

theorem next?_quote (s rest : List Char) :
    next? (Literal.quote s ++ rest) = some (.string (some (String.ofList s)), rest) := by
  rw [Literal.quote, List.append_assoc, List.cons_append, List.singleton_append, next?,
    Literal.pieces?_quote]
  simp [Literal.chars?_map_char]

/-! ## Numbers -/

/-- A text that does not begin in the way in which a number goes on. -/
def Delimited (s : List Char) : Prop :=
  ∀ c ∈ s.head?, c.isDigit = false ∧ c ≠ '.' ∧ c ≠ 'e' ∧ c ≠ 'E'

@[simp] theorem delimited_nil : Delimited [] := by simp [Delimited]

private theorem fraction?_of_delimited {s : List Char} (h : Delimited s) :
    fraction? s = some ([], s) := by
  unfold fraction?
  split
  · have hpoint := (h '.' (by simp)).2.1
    exact absurd rfl hpoint
  · rfl

private theorem exponent?_of_delimited {s : List Char} (h : Delimited s) :
    exponent? s = some ([], s) := by
  unfold exponent?
  split
  · rfl
  · rename_i c s
    obtain ⟨-, -, he, hE⟩ := h c (by simp)
    rw [if_neg (by simp [he, hE])]

private theorem takeWhile_append_delimited {digits s : List Char}
    (hd : ∀ c ∈ digits, c.isDigit = true)
    (h : Delimited s) : (digits ++ s).takeWhile Char.isDigit = digits := by
  rw [List.takeWhile_append_of_pos hd]
  cases s with
  | nil => simp
  | cons c s => simp [(h c (by simp)).1]

private theorem dropWhile_append_delimited {digits s : List Char}
    (hd : ∀ c ∈ digits, c.isDigit = true)
    (h : Delimited s) : (digits ++ s).dropWhile Char.isDigit = s := by
  rw [List.dropWhile_append_of_pos hd]
  cases s with
  | nil => rfl
  | cons c s => simp [(h c (by simp)).1]

private theorem isDigit_of_mem_ofNat {n : Nat} {c : Char} (h : c ∈ Decimal.ofNat n) :
    c.isDigit = true :=
  Nat.isDigit_of_mem_toDigits (by decide) (by decide) h

private theorem head?_ofNat_ne_zero {n : Nat} (h : n ≠ 0) : (Decimal.ofNat n).head? ≠ some '0' := by
  induction n using Nat.strongRecOn with
  | ind n ih =>
    rw [Decimal.ofNat, Nat.toDigits_eq_if (by decide)]
    split
    · rename_i hlt
      have hdigit : ∀ d < 10, d ≠ 0 → d.digitChar ≠ '0' := by decide
      simpa using hdigit n hlt h
    · rename_i hge
      have hquot : n / 10 ≠ 0 := by omega
      rw [List.head?_append_of_ne_nil _ Nat.toDigits_ne_nil]
      exact ih (n / 10) (by omega) hquot

private theorem unsigned?_ofNat (negative : Bool) (n : Nat) {s : List Char} (h : Delimited s)
    (hzero : negative = true → n ≠ 0) :
    unsigned? negative (Decimal.ofNat n ++ s) =
      some (.int (if negative then -(n : Int) else n), s) := by
  have hd : ∀ c ∈ Decimal.ofNat n, c.isDigit = true := fun c hc => isDigit_of_mem_ofNat hc
  have hvalue : Nat.ofDigitChars 10 (Decimal.ofNat n) 0 = n := Nat.ofDigitChars_ten_toDigits
  have hguard : Decimal.ofNat n ≠ [] ∧
      ((Decimal.ofNat n).head? = some '0' → (Decimal.ofNat n).length = 1) := by
    refine ⟨Nat.toDigits_ne_nil, fun hhead => ?_⟩
    have hn : n = 0 := by
      by_contra hne
      exact head?_ofNat_ne_zero hne hhead
    subst hn
    rfl
  have hsign : ¬ (negative = true ∧ n = 0) := fun hs => hzero hs.1 hs.2
  rw [unsigned?, takeWhile_append_delimited hd h, dropWhile_append_delimited hd h, guard,
    if_pos hguard]
  simp only [fraction?_of_delimited h, exponent?_of_delimited h, hvalue,
    Option.pure_def, Option.bind_eq_bind, Option.bind_some, hsign, not_false_eq_true, and_self,
    if_true]

/-- A character that begins a number and nothing else. -/
def StartsNumber (c : Char) : Prop := c = '-' ∨ c.isDigit = true

private theorem StartsNumber.ne {c p : Char} (h : StartsNumber c) (hdigit : p.isDigit = false)
    (hminus : p ≠ '-') : c ≠ p := by
  rintro rfl
  rcases h with h | h
  · exact hminus h
  · simp [hdigit] at h

private theorem word?_of_startsNumber {c : Char} (s : List Char) (h : StartsNumber c) :
    word? (c :: s) = none := by
  have hn : 'n' ≠ c := (h.ne (by decide) (by decide)).symm
  have ht : 't' ≠ c := (h.ne (by decide) (by decide)).symm
  have hf : 'f' ≠ c := (h.ne (by decide) (by decide)).symm
  simp [word?, Text.strip?, hn, ht, hf]

private theorem next?_of_startsNumber {c : Char} (s : List Char) (h : StartsNumber c) :
    next? (c :: s) = (number? (c :: s)).map fun p => (.atom p.1, p.2) := by
  rw [next?]
  · rw [word?_of_startsNumber s h, Option.none_or]
  all_goals
    intro _ hc
    exact h.ne (by decide) (by decide) (List.cons.inj hc).1

private theorem exists_ofNat_eq_cons (n : Nat) :
    ∃ c digits, Decimal.ofNat n = c :: digits ∧ c.isDigit = true := by
  cases hdigits : Decimal.ofNat n with
  | nil => exact absurd hdigits Nat.toDigits_ne_nil
  | cons c digits => exact ⟨c, digits, rfl, isDigit_of_mem_ofNat (hdigits ▸ List.mem_cons_self)⟩

/-- An integer is read back when what follows cannot continue it. -/
theorem next?_ofInt (n : Int) {s : List Char} (h : Delimited s) :
    next? (Decimal.ofInt n ++ s) = some (.atom (.int n), s) := by
  cases n with
  | ofNat n =>
    obtain ⟨c, digits, hdigits, hc⟩ := exists_ofNat_eq_cons n
    have hminus : c ≠ '-' := by
      rintro rfl
      simp at hc
    have hread := unsigned?_ofNat false n h (by simp)
    rw [Decimal.ofInt]
    rw [hdigits, List.cons_append] at hread ⊢
    rw [next?_of_startsNumber _ (.inr hc), number?, hread]
    · rfl
    · intro _ hc'
      exact hminus (List.cons.inj hc').1
  | negSucc n =>
    have hread := unsigned?_ofNat true (n + 1) h (by simp)
    rw [Decimal.ofInt, List.cons_append, next?_of_startsNumber _ (.inl rfl), number?, hread]
    rfl

/-! ## Words and spaces -/

theorem next?_null (s : List Char) :
    next? ('n' :: 'u' :: 'l' :: 'l' :: s) = some (.atom .null, s) := by
  simp [next?, word?, Text.strip?]

theorem next?_true (s : List Char) :
    next? ('t' :: 'r' :: 'u' :: 'e' :: s) = some (.atom (.bool true), s) := by
  simp [next?, word?, Text.strip?]

theorem next?_false (s : List Char) :
    next? ('f' :: 'a' :: 'l' :: 's' :: 'e' :: s) = some (.atom (.bool false), s) := by
  simp [next?, word?, Text.strip?]

theorem next?_nil : next? [] = none := rfl

theorem next?_space {c : Char} (s : List Char) (h : isSpace c = true) : next? (c :: s) = none := by
  simp only [isSpace, Bool.or_eq_true, beq_iff_eq] at h
  obtain ((rfl | rfl) | rfl) | rfl := h <;> rfl

end Token
end SchemaDocs.Json
