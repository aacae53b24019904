import Mathlib.Data.List.Basic
import Mathlib.Order.Bounds.Defs
import SchemaDocs.Comment

/-!
# The first sentence

A sentence ends at a space after a period, but not after an initial: a capital with no capital
before it. The short description is the first paragraph of the long one up to the least position
where a sentence ends, without a period at its end. Main statement: `short_first_sentence`.
-/

namespace SchemaDocs.Comment

variable {a b c d : Char} {before p s : List Char} {i n : Nat}

/-! ## The first paragraph -/

/-- What goes before the first empty line of a text, which is all of it when there is none. -/
inductive FirstParagraph (s : List Char) : List Char → Prop
  | whole : ¬ ['\n', '\n'] <:+: s → FirstParagraph s s
  | broken {p rest : List Char} : s = p ++ ['\n', '\n'] ++ rest →
    ¬ ['\n', '\n'] <:+: p ++ ['\n'] → FirstParagraph s p

private theorem not_isInfix_break_cons (hcd : ¬ (c = '\n' ∧ d = '\n'))
    (h : ¬ ['\n', '\n'] <:+: d :: s) :
    ¬ ['\n', '\n'] <:+: c :: d :: s := by
  intro hcons
  rcases List.infix_cons_iff.mp hcons with ⟨rest, hrest⟩ | hinfix
  · simp only [List.cons_append, List.nil_append, List.cons.injEq] at hrest
    exact hcd ⟨hrest.1.symm, hrest.2.1.symm⟩
  · exact h hinfix

private theorem paragraph_isFirst (s : List Char) : FirstParagraph s (paragraph s) := by
  fun_induction paragraph s with
  | case1 => exact .whole (by decide)
  | case2 c => exact .whole fun h => absurd h.length_le (by simp)
  | case3 c d cs h =>
    obtain ⟨rfl, rfl⟩ := h
    exact .broken rfl (by decide)
  | case4 c d cs h ih =>
    generalize paragraph (d :: cs) = p at ih
    cases ih with
    | whole hwhole => exact .whole (not_isInfix_break_cons h hwhole)
    | @broken _ rest heq hbroken =>
      refine @FirstParagraph.broken _ _ rest (by rw [heq]; rfl) ?_
      cases p with
      | nil =>
        obtain ⟨rfl, -⟩ := List.cons.inj heq
        exact not_isInfix_break_cons h hbroken
      | cons e p =>
        obtain ⟨rfl, -⟩ := List.cons.inj heq
        exact not_isInfix_break_cons h hbroken

/-! ## Where sentences end -/

/-- A capital stands at a position. -/
def CapitalAt (p : List Char) (i : Nat) : Prop := ∃ c, p[i]? = some c ∧ Text.isUpper c = true

/-- A capital stands at a position, and none at the position before it. -/
def InitialAt (p : List Char) (i : Nat) : Prop :=
  CapitalAt p i ∧ ¬ ∃ j, i = j + 1 ∧ CapitalAt p j

/-- A space stands at the position, after a period that no initial goes before. -/
structure EndsSentence (p : List Char) (i : Nat) : Prop where
  space : p[i]? = some ' '
  period : ∃ j, i = j + 1 ∧ p[j]? = some '.'
  not_initial : ¬ ∃ j, i = j + 2 ∧ InitialAt p j

/-- The length of the first sentence of a text: up to the least position where a sentence ends, or
up to the end. -/
def SentenceLength (p : List Char) (n : Nat) : Prop :=
  IsLeast {i | EndsSentence p i} n ∨ n = p.length ∧ ∀ i, ¬ EndsSentence p i

private theorem capitalAt_small : CapitalAt ('x' :: p) i ↔ ∃ j, i = j + 1 ∧ CapitalAt p j := by
  cases i with
  | zero => simp [CapitalAt, show Text.isUpper 'x' = false by decide]
  | succ i => simp [CapitalAt]

private theorem initialAt_small : InitialAt ('x' :: p) i ↔ ∃ j, i = j + 1 ∧ InitialAt p j := by
  cases i with
  | zero => simp [InitialAt, capitalAt_small]
  | succ i => simp [InitialAt, capitalAt_small]

private theorem endsSentence_small : EndsSentence ('x' :: p) (i + 1) ↔ EndsSentence p i := by
  have hperiod : (∃ j, i + 1 = j + 1 ∧ ('x' :: p)[j]? = some '.') ↔
      ∃ j, i = j + 1 ∧ p[j]? = some '.' := by
    cases i <;> simp
  have hinitial : (∃ j, i + 1 = j + 2 ∧ InitialAt ('x' :: p) j) ↔
      ∃ j, i = j + 2 ∧ InitialAt p j := by
    simp only [initialAt_small]
    constructor
    · rintro ⟨j, hi, k, rfl, hk⟩
      exact ⟨k, by omega, hk⟩
    · rintro ⟨k, rfl, hk⟩
      exact ⟨k + 1, rfl, k, rfl, hk⟩
  constructor
  · intro h
    exact ⟨by simpa using h.space, hperiod.mp h.period, fun h' => h.not_initial (hinitial.mpr h')⟩
  · intro h
    exact ⟨by simpa using h.space, hperiod.mpr h.period, fun h' => h.not_initial (hinitial.mp h')⟩

/-- A position is judged by the character there and the three before it. -/
theorem endsSentence_append_iff (w s : List Char) :
    EndsSentence (w ++ a :: b :: c :: d :: s) (w.length + 3) ↔
      d = ' ' ∧ c = '.' ∧ (Text.isUpper b = true → Text.isUpper a = true) := by
  have hinitial : (∃ j, w.length + 3 = j + 2 ∧ InitialAt (w ++ a :: b :: c :: d :: s) j) ↔
      Text.isUpper b = true ∧ ¬ Text.isUpper a = true := by
    simp [InitialAt, CapitalAt]
  constructor
  · intro h
    refine ⟨by simpa using h.space, by simpa using h.period, fun hb => ?_⟩
    exact Decidable.not_not.mp fun ha => h.not_initial (hinitial.mpr ⟨hb, ha⟩)
  · rintro ⟨rfl, rfl, hupper⟩
    refine ⟨by simp, ⟨w.length + 2, rfl, by simp⟩, fun h => ?_⟩
    obtain ⟨hb, ha⟩ := hinitial.mp h
    exact ha (hupper hb)

/-! ## Reading up to the end of a sentence -/

/-- The last three characters of a text, with a small letter for each that it lacks. -/
def Window (before : List Char) (a b c : Char) : Prop :=
  ∃ w, 'x' :: 'x' :: 'x' :: before = w ++ [a, b, c]

private theorem window_nil : Window [] 'x' 'x' 'x' := ⟨[], rfl⟩

private theorem Window.append (h : Window before a b c) : Window (before ++ [d]) b c d := by
  obtain ⟨w, hw⟩ := h
  exact ⟨w ++ [a], by simpa using congrArg (· ++ [d]) hw⟩

private theorem Window.endsSentence_iff (h : Window before a b c) :
    EndsSentence (before ++ d :: s) before.length ↔
      d = ' ' ∧ c = '.' ∧ (Text.isUpper b = true → Text.isUpper a = true) := by
  obtain ⟨w, hw⟩ := h
  have hlength := congrArg List.length hw
  have htext := congrArg (· ++ d :: s) hw
  simp only [List.length_cons, List.length_append, List.length_nil, List.cons_append,
    List.append_assoc, List.nil_append] at hlength htext
  rw [← endsSentence_small, ← endsSentence_small, ← endsSentence_small, htext, hlength,
    endsSentence_append_iff]

/-- Where no sentence has ended so far, reading goes on up to the end of the first one. -/
theorem sentenceAfter_eq_take (h : Window before a b c)
    (hnone : ∀ i < before.length, ¬ EndsSentence (before ++ s) i) :
    ∃ n, SentenceLength (before ++ s) n ∧
      before ++ sentenceAfter a b c s = (before ++ s).take n := by
  induction s generalizing before a b c with
  | nil =>
    refine ⟨(before ++ []).length, .inr ⟨rfl, fun i hi => ?_⟩, by rw [List.take_length]; rfl⟩
    by_cases hlt : i < before.length
    · exact hnone i hlt hi
    · have hspace := hi.space
      simp [List.getElem?_eq_none (Nat.le_of_not_lt hlt)] at hspace
  | cons d s ih =>
    by_cases hends : EndsSentence (before ++ d :: s) before.length
    · refine ⟨before.length, .inl ⟨hends, fun i hi => ?_⟩, ?_⟩
      · exact Nat.le_of_not_lt fun hlt => hnone i hlt hi
      · rw [sentenceAfter, if_pos (h.endsSentence_iff.mp hends), List.take_left, List.append_nil]
    · have hsplit : before ++ d :: s = (before ++ [d]) ++ s := by simp
      have hnone' : ∀ i < (before ++ [d]).length, ¬ EndsSentence ((before ++ [d]) ++ s) i := by
        intro i hi
        rw [← hsplit]
        rcases Nat.lt_succ_iff_lt_or_eq.mp (by simpa using hi) with hlt | rfl
        · exact hnone i hlt
        · exact hends
      obtain ⟨n, hn, htake⟩ := ih h.append hnone'
      rw [sentenceAfter, if_neg fun hd => hends (h.endsSentence_iff.mpr hd), hsplit]
      exact ⟨n, hn, by rw [← htake]; simp⟩

theorem sentence_eq_take (s : List Char) :
    ∃ n, SentenceLength (paragraph s) n ∧ sentence s = (paragraph s).take n :=
  sentenceAfter_eq_take window_nil nofun

/-! ## The short description -/

theorem dropPeriod_cases (s : List Char) :
    s = dropPeriod s ++ ['.'] ∨ s = dropPeriod s ∧ ¬ ['.'] <:+ dropPeriod s := by
  unfold dropPeriod
  split
  · rename_i hlast
    exact .inl (List.dropLast_append_getLast? '.' hlast).symm
  · rename_i hlast
    refine .inr ⟨rfl, fun h => hlast ?_⟩
    obtain ⟨t, rfl⟩ := h
    simp

/-- The short description is the first paragraph of the long one up to the least position that ends
a sentence, or the whole of it, without a period at its end. -/
theorem short_first_sentence (name raw : List Char) : ∃ p n,
    FirstParagraph (long name raw) p ∧ SentenceLength p n ∧
      (p.take n = short name raw ++ ['.'] ∨
        p.take n = short name raw ∧ ¬ ['.'] <:+ short name raw) := by
  obtain ⟨n, hn, htake⟩ := sentence_eq_take (long name raw)
  refine ⟨paragraph (long name raw), n, paragraph_isFirst _, hn, ?_⟩
  rw [← htake]
  exact dropPeriod_cases (sentence (long name raw))

/-- The period of an initial ends no sentence, and that of an abbreviation in capitals does. -/
example : short [] "Issued by J. Smith for NASA. Paid.".toList =
    "Issued by J. Smith for NASA".toList := by decide +kernel

end SchemaDocs.Comment
