import Mathlib.Algebra.Group.Nat.Defs
import SchemaDocs.Toml.Document

/-!
# Texts that TOML can state

Every text can be written as a basic string, and so be a key or a value of a document. Main
statement: `parse?_statement`.
-/

namespace SchemaDocs.Toml

/-! ## Quoted texts -/

/-- The last `k` hexadecimal digits of a number. -/
def hexDigits : Nat → Nat → List Char
  | 0, _ => []
  | k + 1, n => hexDigits k (n / 16) ++ [Nat.digitChar (n % 16)]

/-- A character by its code point. -/
def escape (c : Char) : List Char := '\\' :: 'U' :: hexDigits 8 c.toNat

/-- A text as a basic string on one line. -/
def quote (s : List Char) : List Char := '"' :: s.flatMap escape ++ ['"']

@[simp] theorem length_hexDigits (k n : Nat) : (hexDigits k n).length = k := by
  induction k generalizing n with
  | zero => rfl
  | succ k ih => simp [hexDigits, ih]

private theorem hexValue?_digitChar : ∀ n < 16, hexValue? n.digitChar = some n := by decide

private theorem exists_mapM_hexDigits (k n : Nat) : ∃ ds, (hexDigits k n).mapM hexValue? = some ds ∧
    ds.foldl (fun n d => 16 * n + d) 0 = n % 16 ^ k := by
  induction k generalizing n with
  | zero => exact ⟨[], rfl, by simp [Nat.mod_one]⟩
  | succ k ih =>
    obtain ⟨ds, hds, hvalue⟩ := ih (n / 16)
    refine ⟨ds ++ [n % 16], ?_, ?_⟩
    · have hlast : hexValue? (n % 16).digitChar = some (n % 16) :=
        hexValue?_digitChar _ (Nat.mod_lt n (by decide))
      simp [hexDigits, List.mapM_append, hds, hlast]
    · rw [List.foldl_append, hvalue, List.foldl_cons, List.foldl_nil, Nat.pow_succ,
        Nat.mul_comm (16 ^ k) 16, Nat.mod_mul, Nat.add_comm]

private theorem scalar?_hexDigits (c : Char) : scalar? (hexDigits 8 c.toNat) = some c := by
  obtain ⟨ds, hds, hvalue⟩ := exists_mapM_hexDigits 8 c.toNat
  have hvalid : c.toNat.isValidChar := c.valid
  have hlt : c.toNat < 16 ^ 8 := by
    unfold Nat.isValidChar at hvalid
    omega
  rw [Nat.mod_eq_of_lt hlt] at hvalue
  simp [scalar?, hds, hvalue, hvalid]

private theorem escape?_hexDigits (c : Char) (rest : List Char) :
    escape? ('U' :: (hexDigits 8 c.toNat ++ rest)) = some (c, rest) := by
  simp [escape?, scalar?_hexDigits]

private theorem basic?_quote (s rest : List Char) :
    basic? (s.flatMap escape ++ '"' :: rest) = some (s, rest) := by
  induction s with
  | nil => rw [List.flatMap_nil, List.nil_append, basic?]
  | cons c s ih =>
    have hescape := escape?_hexDigits c (s.flatMap escape ++ '"' :: rest)
    rw [List.flatMap_cons, List.append_assoc, escape, List.cons_append, List.cons_append, basic?]
    split
    · rename_i hnone
      cases hnone.symm.trans hescape
    · rename_i hsome
      cases hsome.symm.trans hescape
      rw [ih]
      rfl

/-! ## Bare keys -/

/-- A key that needs no quotation marks. -/
def IsBare (k : List Char) : Prop := k ≠ [] ∧ k.all isBareChar = true

private theorem IsBare.exists_cons {k : List Char} (h : IsBare k) :
    ∃ c rest, k = c :: rest ∧ isBareChar c = true := by
  obtain ⟨c, rest, rfl⟩ := List.exists_cons_of_ne_nil h.1
  exact ⟨c, rest, rfl, List.all_eq_true.mp h.2 c List.mem_cons_self⟩

private theorem ne_of_isBareChar {c d : Char} (hc : isBareChar c = true) (hd : isBareChar d = false)
    :
    c ≠ d := by
  rintro rfl
  exact Bool.false_ne_true (hd.symm.trans hc)

private theorem isBlank_eq_false_of_isBareChar {c : Char} (h : isBareChar c = true) :
    isBlank c = false := by
  simp [isBlank, ne_of_isBareChar h (show isBareChar ' ' = false by decide),
    ne_of_isBareChar h (show isBareChar '\t' = false by decide)]

private theorem skipBlank_cons {c : Char} (h : isBlank c = false) (rest : List Char) :
    skipBlank (c :: rest) = c :: rest :=
  List.dropWhile_cons_of_neg (by simpa using h)

private theorem key?_bare {k : List Char} (hk : IsBare k) (rest : List Char) :
    key? (k ++ ' ' :: rest) = some (String.ofList k, ' ' :: rest) := by
  have hbare := List.all_eq_true.mp hk.2
  have htake : (k ++ ' ' :: rest).takeWhile isBareChar = k := by
    rw [List.takeWhile_append_of_pos hbare, List.takeWhile_cons_of_neg (by decide), List.append_nil]
  have hdrop : (k ++ ' ' :: rest).dropWhile isBareChar = ' ' :: rest := by
    rw [List.dropWhile_append_of_pos hbare, List.dropWhile_cons_of_neg (by decide)]
  obtain ⟨c, k, rfl, hc⟩ := hk.exists_cons
  rw [List.cons_append] at htake hdrop ⊢
  rw [key?]
  · rw [htake, hdrop, if_neg (List.cons_ne_nil c k)]
  · intro s h
    exact ne_of_isBareChar hc (by decide) (List.cons.inj h).1
  · intro s h
    exact ne_of_isBareChar hc (by decide) (List.cons.inj h).1

/-! ## Documents -/

/-- The text of one table with one string in it, under a bare key. -/
def statement (key entry text : String) : List Char :=
  '[' :: (quote key.toList ++ ']' :: '\n' ::
    (entry.toList ++ ' ' :: '=' :: ' ' :: quote text.toList))

private theorem target?_quote (s rest : List Char) :
    target? (quote s ++ ']' :: rest) = some ([], String.ofList s, ']' :: rest) := by
  rw [target?, show maxNesting = 78 + 1 from rfl, path?, quote, List.append_assoc, List.cons_append,
    List.cons_append, List.nil_append, skipBlank_cons (by decide), key?, basic?_quote]
  simp [skipBlank_cons (show isBlank ']' = false by decide)]

private theorem target?_bare {entry : String} (hentry : IsBare entry.toList) (rest : List Char) :
    target? (entry.toList ++ ' ' :: '=' :: rest) = some ([], entry, '=' :: rest) := by
  have hkey := key?_bare hentry ('=' :: rest)
  have hskip : skipBlank (entry.toList ++ ' ' :: '=' :: rest) =
      entry.toList ++ ' ' :: '=' :: rest := by
    obtain ⟨c, k, hk, hc⟩ := hentry.exists_cons
    rw [hk, List.cons_append]
    exact skipBlank_cons (isBlank_eq_false_of_isBareChar hc) _
  have hrest : skipBlank (' ' :: '=' :: rest) = '=' :: rest := rfl
  rw [String.ofList_toList] at hkey
  rw [target?, show maxNesting = 78 + 1 from rfl, path?, hskip, hkey]
  simp [hrest]

private theorem line?_header (p : Progress) (key : String) (rest : List Char) :
    line? p ('[' :: (quote key.toList ++ ']' :: '\n' :: rest)) =
      (p.root.define [] key).map fun root => (⟨root, [key]⟩, rest) := by
  have htarget := target?_quote key.toList ('\n' :: rest)
  rw [quote, List.append_assoc, List.cons_append] at htarget ⊢
  rw [line?]
  · rw [htarget]
    cases hroot : p.root.define [] key <;>
      simp [mark?, endOfLine?, skipBlank, isBlank, newline?, hroot]
  · intro s h
    cases h

private theorem value?_quote (fuel depth : Nat) (s : List Char) :
    value? (fuel + 1) depth (quote s) = some (.string (String.ofList s), []) := by
  have hbasic := basic?_quote s []
  have hstring : string? (quote s) = some (s, []) := by
    cases s with
    | nil => simp [quote, string?, basic?]
    | cons c s => simpa [quote, escape, string?] using hbasic
  rw [quote, List.cons_append] at hstring ⊢
  rw [value?]
  · rw [hstring]
    rfl
  · intro s h
    cases h
  · intro s h
    cases h

private theorem line?_entry (p : Progress) {entry : String} (hentry : IsBare entry.toList)
    (text : String) :
    line? p (entry.toList ++ ' ' :: '=' :: ' ' :: quote text.toList) =
      (p.root.alter false (·.addValue [] entry (.string text)) p.here).map
        fun root => (⟨root, p.here⟩, []) := by
  have hskip : skipBlank (' ' :: quote text.toList) = quote text.toList := rfl
  have hend : endOfLine? [] = some [] := rfl
  have htarget := target?_bare hentry (' ' :: quote text.toList)
  obtain ⟨c, k, hk, hc⟩ := hentry.exists_cons
  rw [hk, List.cons_append] at htarget ⊢
  rw [line?]
  · rw [htarget]
    cases hroot : p.root.alter false (·.addValue [] entry (.string text)) p.here <;>
      simp [mark?, hskip, value?_quote, hend, hroot]
  · intro s h
    exact ne_of_isBareChar hc (by decide) (List.cons.inj h).1
  · intro s h
    exact ne_of_isBareChar hc (by decide) (List.cons.inj h).1

private theorem lines?_line {fuel : Nat} {c : Char} {p : Progress} {s : List Char}
    (hblank : isBlank c = false) (hcomment : c ≠ '#') (hnewline : newline? (c :: s) = none) :
    lines? (fuel + 1) p (c :: s) = (line? p (c :: s)).bind fun x => lines? fuel x.1 x.2 := by
  rw [lines?.eq_def, skipBlank_cons hblank]
  simp [hnewline, hcomment]

private theorem newline?_bare {c : Char} (hc : isBareChar c = true) (s : List Char) :
    newline? (c :: s) = none := by
  unfold newline?
  split
  · rename_i h
    exact absurd (List.cons.inj h).1 (ne_of_isBareChar hc (by decide))
  · rename_i h
    exact absurd (List.cons.inj h).1 (ne_of_isBareChar hc (by decide))
  · rfl

private theorem define_empty (key : String) :
    Draft.empty.define [] key = some (.mk false false [(key, .table Draft.empty)]) := rfl

private theorem alter_addValue (key entry text : String) :
    (Draft.mk false false [(key, .table Draft.empty)]).alter false
        (·.addValue [] entry (.string text)) [key] =
      some (.mk false false
        [(key, .table (.mk false false [(entry, .value (.string text))]))]) := by
  have hadd : Draft.empty.addValue [] entry (.string text) =
      some (.mk false false [(entry, .value (.string text))]) := rfl
  simp [Draft.alter, Draft.get?, Draft.entries, Draft.set, Draft.isImplied, Draft.isDotted, hadd]

/-- Every text can be the value of a bare key in a table of whatever name. -/
theorem parse?_statement (key text : String) {entry : String} (hentry : IsBare entry.toList) :
    parse? (statement key entry text) =
      some (KeyMap.ofList [(key, .table [(entry, .string text)])]) := by
  have hlines : ∀ fuel, lines? (fuel + 3) ⟨Draft.empty, []⟩ (statement key entry text) =
      some ⟨.mk false false
        [(key, .table (.mk false false [(entry, .value (.string text))]))], [key]⟩ := by
    intro fuel
    rw [statement, lines?_line (by decide) (by decide) (by rfl), line?_header, define_empty,
      Option.map_some, Option.bind_some]
    have hline := line?_entry ⟨.mk false false [(key, .table Draft.empty)], [key]⟩ hentry text
    obtain ⟨c, k, hk, hc⟩ := hentry.exists_cons
    rw [alter_addValue] at hline
    rw [hk, List.cons_append] at hline ⊢
    rw [lines?_line (isBlank_eq_false_of_isBareChar hc) (ne_of_isBareChar hc (by decide))
      (newline?_bare hc _), hline]
    rfl
  have hlength : ∃ fuel, (statement key entry text).length + 1 = fuel + 3 :=
    ⟨(statement key entry text).length - 2, by simp [statement, quote]⟩
  obtain ⟨fuel, hfuel⟩ := hlength
  have hroot := hlines fuel
  rw [← hfuel] at hroot
  rw [parse?]
  · rw [hroot]
    rfl
  · intro s h
    rw [statement] at h
    cases h

end SchemaDocs.Toml
