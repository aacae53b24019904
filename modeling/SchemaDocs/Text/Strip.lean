/-!
# Parts of a text

Taking a given start off a text, and taking out a given part wherever it stands. Main statement:
`strip?_eq_some_iff`.
-/

namespace SchemaDocs.Text

/-- What follows the given start, when the text has that start. -/
def strip? : List Char → List Char → Option (List Char)
  | [], s => some s
  | _ :: _, [] => none
  | p :: ps, c :: cs => if p = c then strip? ps cs else none

@[simp] theorem strip?_nil (s : List Char) : strip? [] s = some s := by cases s <;> rfl

theorem strip?_eq_some_iff {p s r : List Char} : strip? p s = some r ↔ s = p ++ r := by
  induction p generalizing s with
  | nil => simp [eq_comm]
  | cons a p ih =>
    cases s with
    | nil => simp [strip?]
    | cons c s =>
      by_cases h : a = c
      · simp [strip?, h, ih]
      · simp [strip?, h, Ne.symm h]

@[simp] theorem strip?_append (p r : List Char) : strip? p (p ++ r) = some r :=
  strip?_eq_some_iff.2 rfl

theorem length_of_strip? {p s r : List Char} (h : strip? p s = some r) :
    s.length = p.length + r.length := by
  simp [strip?_eq_some_iff.1 h]

/-- The text without its start, when it has that start. -/
def without (start s : List Char) : List Char := (strip? start s).getD s

/-- The text without every occurrence of the part `p :: ps`, found from left to right; an occurrence
that only arises by a removal stays. -/
def remove (p : Char) (ps : List Char) (s : List Char) : List Char :=
  match s with
  | [] => []
  | c :: cs =>
    match h : strip? (p :: ps) (c :: cs) with
    | some rest =>
      have : rest.length ≤ cs.length := by
        have := length_of_strip? h
        simp only [List.length_cons] at this
        omega
      remove p ps rest
    | none => c :: remove p ps cs
termination_by s.length

end SchemaDocs.Text
