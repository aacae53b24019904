import Mathlib.Algebra.Group.Int.Defs
import Mathlib.Data.List.Induction
import SchemaDocs.Proofs.Text.Trim
import SchemaDocs.Section.Configuration

/-!
# Weights in a text

A text holds a weight if it is a decimal integer of 64 bits, with a sign or without, between white
space; zeros before its digits change nothing. Main statements: `holdsInteger_iff_isWritten` and
`readWeight?_iff_holdsInteger`.
-/

namespace SchemaDocs

namespace Decimal

variable {s : List Char}

/-- A row of digits and its value. -/
def Digits (s : List Char) (n : Nat) : Prop :=
  s ≠ [] ∧ (∀ c ∈ s, c.isDigit = true) ∧ n = Nat.ofDigitChars 10 s 0

/-- A decimal integer, after one sign or none, and its value. -/
inductive Numeral : List Char → Int → Prop
  | unsigned {s : List Char} {n : Nat} : Digits s n → Numeral s n
  | plus {s : List Char} {n : Nat} : Digits s n → Numeral ('+' :: s) n
  | minus {s : List Char} {n : Nat} : Digits s n → Numeral ('-' :: s) (-n)

private theorem nat?_eq_some_iff {n : Nat} : nat? s = some n ↔ Digits s n := by
  unfold nat? Digits
  simp only [List.all_eq_true, Option.ite_none_right_eq_some, Option.some.injEq, and_assoc,
    eq_comm (a := n)]

private theorem Digits.not_sign {n : Nat} {c : Char} (h : Digits (c :: s) n) :
    c ≠ '+' ∧ c ≠ '-' := by
  have hdigit : c.isDigit = true := h.2.1 c List.mem_cons_self
  constructor
  · rintro rfl
    exact absurd hdigit (by decide)
  · rintro rfl
    exact absurd hdigit (by decide)

private theorem signed?_eq_some_iff {n : Int} : signed? s = some n ↔ Numeral s n := by
  constructor
  · intro h
    unfold signed? at h
    split at h
    · obtain ⟨_, hcast, rfl⟩ := Option.map_eq_some_iff.mp h
      obtain ⟨k, hk, heq⟩ := Option.bind_eq_some_iff.mp hcast
      cases heq
      exact .minus (nat?_eq_some_iff.mp hk)
    · obtain ⟨k, hk, rfl⟩ := Option.map_eq_some_iff.mp h
      exact .plus (nat?_eq_some_iff.mp hk)
    · obtain ⟨k, hk, rfl⟩ := Option.map_eq_some_iff.mp h
      exact .unsigned (nat?_eq_some_iff.mp hk)
  · intro h
    cases h with
    | plus h =>
      rw [signed?, nat?_eq_some_iff.mpr h]
      rfl
    | minus h =>
      rw [signed?, nat?_eq_some_iff.mpr h]
      rfl
    | unsigned h =>
      unfold signed?
      split
      · exact absurd rfl h.not_sign.2
      · exact absurd rfl h.not_sign.1
      · rw [nat?_eq_some_iff.mpr h]
        rfl

private theorem isBlank_eq_false_of_isDigit {c : Char} (h : c.isDigit = true) :
    Text.isBlank c = false := by
  simp only [Char.isDigit, Bool.and_eq_true, decide_eq_true_eq, UInt32.le_iff_toNat_le] at h
  simp only [Text.isBlank, Char.toNat]
  grind

private theorem Digits.trimmed {n : Nat} (h : Digits s n) : Text.Trimmed s :=
  ⟨fun c hc => isBlank_eq_false_of_isDigit (h.2.1 c (List.mem_of_mem_head? hc)),
    fun c hc => isBlank_eq_false_of_isDigit (h.2.1 c (List.mem_of_getLast? hc))⟩

private theorem Numeral.trimmed {n : Int} (h : Numeral s n) : Text.Trimmed s := by
  cases h with
  | unsigned h => exact h.trimmed
  | plus h => exact h.trimmed.cons h.1 (by decide)
  | minus h => exact h.trimmed.cons h.1 (by decide)

private theorem lt_ten_of_isDigit {c : Char} (h : c.isDigit = true) : c.toNat - '0'.toNat < 10 := by
  have hrange := Char.isDigit_iff_toNat.mp h
  have hzero : '0'.toNat = 48 := rfl
  have hnine : '9'.toNat = 57 := rfl
  omega

private theorem ofNat_of_isDigit {c : Char} (h : c.isDigit = true) :
    ofNat (c.toNat - '0'.toNat) = [c] := by
  have hlow := (Char.isDigit_iff_toNat.mp h).1
  have hzero : '0'.toNat = 48 := rfl
  rw [ofNat, Nat.toDigits_of_lt_base (lt_ten_of_isDigit h)]
  refine congrArg (fun d => [d]) (Char.toNat_inj.mp ?_)
  rw [Nat.toNat_digitChar_of_lt_ten (lt_ten_of_isDigit h)]
  omega

private theorem ofNat_append_digit {n : Nat} {c : Char} (hn : n ≠ 0) (hc : c.isDigit = true) :
    ofNat n ++ [c] = ofNat (10 * n + (c.toNat - '0'.toNat)) := by
  have hlast := Nat.toDigits_append_toDigits (b := 10) (by decide) (Nat.pos_of_ne_zero hn)
    (lt_ten_of_isDigit hc)
  rw [← ofNat_of_isDigit hc]
  exact hlast

private theorem digits_zeros_append (zeros n : Nat) :
    Digits (List.replicate zeros '0' ++ ofNat n) n := by
  refine ⟨List.append_ne_nil_of_right_ne_nil _ Nat.toDigits_ne_nil, fun c hc => ?_, ?_⟩
  · rcases List.mem_append.mp hc with hc | hc
    · rw [List.eq_of_mem_replicate hc]
      rfl
    · exact Nat.isDigit_of_mem_toDigits (by decide) (by decide) hc
  · rw [Nat.ofDigitChars_append, Nat.ofDigitChars_replicate_zero, Nat.mul_zero, ofNat,
      Nat.ofDigitChars_toDigits (by decide) (by decide)]

private theorem digits_iff {n : Nat} :
    Digits s n ↔ ∃ zeros, s = List.replicate zeros '0' ++ ofNat n := by
  constructor
  · intro h
    obtain ⟨hne, hdigits, rfl⟩ := h
    induction s using List.reverseRecOn with
    | nil => exact absurd rfl hne
    | append_singleton t c ih =>
      have hc := hdigits c (List.mem_append_right _ List.mem_cons_self)
      rw [Nat.ofDigitChars_append, Nat.ofDigitChars_cons, Nat.ofDigitChars_nil]
      by_cases ht : t = []
      · refine ⟨0, ?_⟩
        rw [ht, Nat.ofDigitChars_nil, Nat.mul_zero, Nat.zero_add, ofNat_of_isDigit hc]
        rfl
      · obtain ⟨zeros, hzeros⟩ := ih ht fun d hd => hdigits d (List.mem_append_left _ hd)
        by_cases hvalue : Nat.ofDigitChars 10 t 0 = 0
        · rw [hvalue] at hzeros ⊢
          refine ⟨zeros + 1, ?_⟩
          rw [Nat.mul_zero, Nat.zero_add, ofNat_of_isDigit hc, hzeros, List.replicate_succ']
          rfl
        · refine ⟨zeros, ?_⟩
          rw [← ofNat_append_digit hvalue hc, ← List.append_assoc, ← hzeros]
  · rintro ⟨zeros, rfl⟩
    exact digits_zeros_append zeros n

theorem fits_64_iff {n : Int} : fits 64 n = true ↔ -2 ^ 63 ≤ n ∧ n ≤ 2 ^ 63 - 1 := by
  have hpow : ((Nat.pow 2 (64 - 1) : Nat) : Int) = 2 ^ 63 := rfl
  rw [fits, hpow, Bool.and_eq_true, decide_eq_true_eq, decide_eq_true_eq]
  omega

end Decimal

namespace Section

variable {text : String} {w : Int64}

/-- A text holds a decimal integer between white space. -/
def HoldsInteger (text : String) (n : Int) : Prop :=
  ∃ before numeral after, text.toList = before ++ numeral ++ after ∧ Text.Blank before ∧
    Text.Blank after ∧ Decimal.Numeral numeral n

theorem signed?_trim_eq_some_iff {n : Int} :
    Decimal.signed? (Text.trim text.toList) = some n ↔ HoldsInteger text n := by
  rw [Decimal.signed?_eq_some_iff]
  constructor
  · intro h
    obtain ⟨-, before, after, hbefore, hafter, htext⟩ :=
      Text.trim_eq_iff.mp (Eq.refl (Text.trim text.toList))
    exact ⟨before, _, after, htext, hbefore, hafter, h⟩
  · intro h
    obtain ⟨before, numeral, after, htext, hbefore, hafter, hnumeral⟩ := h
    rwa [Text.trim_eq_iff.mpr ⟨hnumeral.trimmed, before, after, hbefore, hafter, htext⟩]

theorem readWeight?_eq_some_iff : readWeight? text = some w ↔
    ∃ n, HoldsInteger text n ∧ Decimal.fits 64 n = true ∧ w = Int64.ofInt n := by
  simp only [← signed?_trim_eq_some_iff]
  unfold readWeight?
  split
  · rename_i n hn
    simp [hn, eq_comm (a := w)]
  · rename_i hn
    simp [hn]

theorem HoldsInteger.unique {n n' : Int} (h : HoldsInteger text n) (h' : HoldsInteger text n') :
    n = n' :=
  Option.some.inj ((signed?_trim_eq_some_iff.mpr h).symm.trans (signed?_trim_eq_some_iff.mpr h'))

/-- An integer as it may be written: its digits with zeros before them, after a sign that only a
number below zero must have, between white space. -/
def IsWritten (text : String) (n : Int) : Prop :=
  ∃ before sign zeros after, text.toList =
      before ++ (sign ++ (List.replicate zeros '0' ++ Decimal.ofNat n.natAbs)) ++ after ∧
    Text.Blank before ∧ Text.Blank after ∧
      (0 ≤ n ∧ (sign = [] ∨ sign = ['+']) ∨ n ≤ 0 ∧ sign = ['-'])

/-- What a text holds is what is written in it. -/
theorem holdsInteger_iff_isWritten {n : Int} : HoldsInteger text n ↔ IsWritten text n := by
  constructor
  · intro h
    obtain ⟨before, numeral, after, htext, hbefore, hafter, hnumeral⟩ := h
    cases hnumeral with
    | @unsigned _ n hdigits =>
      obtain ⟨zeros, rfl⟩ := Decimal.digits_iff.mp hdigits
      exact ⟨before, [], zeros, after, htext, hbefore, hafter,
        .inl ⟨Int.natCast_nonneg n, .inl rfl⟩⟩
    | @plus _ n hdigits =>
      obtain ⟨zeros, rfl⟩ := Decimal.digits_iff.mp hdigits
      exact ⟨before, ['+'], zeros, after, htext, hbefore, hafter,
        .inl ⟨Int.natCast_nonneg n, .inr rfl⟩⟩
    | @minus _ n hdigits =>
      obtain ⟨zeros, rfl⟩ := Decimal.digits_iff.mp hdigits
      refine ⟨before, ['-'], zeros, after, ?_, hbefore, hafter, .inr ⟨by omega, rfl⟩⟩
      rw [Int.natAbs_neg, Int.natAbs_natCast]
      exact htext
  · intro h
    obtain ⟨before, sign, zeros, after, htext, hbefore, hafter, hsign⟩ := h
    refine ⟨before, _, after, htext, hbefore, hafter, ?_⟩
    have hdigits := Decimal.digits_iff.mpr ⟨zeros, Eq.refl (_ ++ Decimal.ofNat n.natAbs)⟩
    rcases hsign with ⟨hn, rfl | rfl⟩ | ⟨hn, rfl⟩
    · exact Int.natAbs_of_nonneg hn ▸ .unsigned hdigits
    · exact Int.natAbs_of_nonneg hn ▸ .plus hdigits
    · have hneg : n = -(n.natAbs : Int) := by omega
      rw [hneg, Int.natAbs_neg, Int.natAbs_natCast]
      exact .minus hdigits

/-- The weight in a text is the integer that it holds. -/
theorem readWeight?_iff_holdsInteger :
    readWeight? text = some w ↔ HoldsInteger text w.toInt := by
  rw [readWeight?_eq_some_iff]
  constructor
  · intro h
    obtain ⟨n, hn, hfits, rfl⟩ := h
    obtain ⟨hlow, hhigh⟩ := Decimal.fits_64_iff.mp hfits
    rwa [Int64.toInt_ofInt_of_le hlow (by omega)]
  · intro h
    have hlow := w.le_toInt
    have hhigh := w.toInt_lt
    exact ⟨w.toInt, h, Decimal.fits_64_iff.mpr ⟨hlow, by omega⟩, w.ofInt_toInt.symm⟩

end Section

end SchemaDocs
