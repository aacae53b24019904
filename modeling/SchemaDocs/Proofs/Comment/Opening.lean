import SchemaDocs.Comment
import SchemaDocs.Proofs.Text.Strip
import SchemaDocs.Proofs.Text.Uppercase

/-!
# Names at the start of a description

A comment may open with the name of what it describes: with a verb after it, or alone. The long
description is without that opening. It is without more than one if the name follows again on the
verb, and only then. Main statement: `long_drops_once_iff`.
-/

namespace SchemaDocs.Comment

open Text (without capitalize)

variable {name start s r : List Char}

/-! ## Openings -/

def openingIs (name : List Char) : List Char := name ++ [' ', 'i', 's', ' ']

def openingAre (name : List Char) : List Char := name ++ [' ', 'a', 'r', 'e', ' ']

/-- The name alone, as one word. -/
def openingBare (name : List Char) : List Char := name ++ [' ']

/-- The text without one opening: the first of the three that it starts with. -/
def dropOpening (name s : List Char) : List Char :=
  ([openingIs name, openingAre name, openingBare name].findSome? (Text.strip? · s)).getD s

private theorem not_openingIs_of_openingAre (h : openingAre name <+: s) :
    ¬ openingIs name <+: s := by
  rintro ⟨r, rfl⟩
  obtain ⟨r', h⟩ := h
  simp [openingAre, openingIs] at h

private theorem openingBare_of_openingAre (h : openingAre name <+: s) : openingBare name <+: s :=
  List.IsPrefix.trans ⟨['a', 'r', 'e', ' '], by simp [openingAre, openingBare]⟩ h

private theorem dropOpening_openingIs (name r : List Char) :
    dropOpening name (openingIs name ++ r) = r := by
  simp [dropOpening]

private theorem dropOpening_openingAre (name r : List Char) :
    dropOpening name (openingAre name ++ r) = r := by
  have hare : openingAre name <+: openingAre name ++ r := List.prefix_append _ r
  simp [dropOpening, Text.strip?_eq_none (not_openingIs_of_openingAre hare)]

private theorem dropOpening_of_not (his : ¬ openingIs name <+: s) (hare : ¬ openingAre name <+: s) :
    dropOpening name s = without (openingBare name) s := by
  simp [dropOpening, Text.strip?_eq_none his, Text.strip?_eq_none hare, without]

/-! ## Spaces -/

private theorem count_without_le (start s : List Char) :
    (without start s).count ' ' ≤ s.count ' ' :=
  (Text.without_isSuffix start s).sublist.count_le ' '

private theorem count_without_lt (h : start <+: s) (hspace : ' ' ∈ start) :
    (without start s).count ' ' < s.count ' ' := by
  obtain ⟨r, rfl⟩ := h
  rw [Text.without_eq_of_append, List.count_append]
  exact Nat.lt_add_of_pos_left (List.count_pos_iff.mpr hspace)

private theorem count_capitalize (s : List Char) : (capitalize s).count ' ' = s.count ' ' := by
  cases s with
  | nil => rfl
  | cons c s =>
    rw [capitalize, List.count_append]
    by_cases hc : c = ' '
    · subst hc
      simp [show Text.upper ' ' = [' '] by decide, Nat.add_comm]
    · have hnot : ' ' ∉ Text.upper c := fun h =>
        hc (Text.eq_of_mem_upper (by decide) h (by decide))
      rw [List.count_eq_zero.mpr hnot, List.count_cons_of_ne hc, Nat.zero_add]

/-! ## The name twice -/

/-- The name follows again on the verb. -/
def NameTwice (name s : List Char) : Prop :=
  openingIs name ++ openingBare name <+: s ∨ openingAre name ++ openingBare name <+: s

private theorem dropName_eq (name s : List Char) : dropName name s =
    without (openingBare name) (without (openingAre name) (without (openingIs name) s)) := rfl

private theorem dropName_eq_dropOpening (h : ¬ NameTwice name s) :
    dropName name s = dropOpening name s := by
  rw [dropName_eq]
  by_cases his : openingIs name <+: s
  · obtain ⟨r, rfl⟩ := his
    have hbare : ¬ openingBare name <+: r := fun hr =>
      h (.inl ((List.prefix_append_right_inj _).mpr hr))
    have hare : ¬ openingAre name <+: r := fun hr => hbare (openingBare_of_openingAre hr)
    rw [Text.without_eq_of_append, Text.without_of_not_isPrefix hare,
      Text.without_of_not_isPrefix hbare, dropOpening_openingIs]
  · rw [Text.without_of_not_isPrefix his]
    by_cases hare : openingAre name <+: s
    · obtain ⟨r, rfl⟩ := hare
      have hbare : ¬ openingBare name <+: r := fun hr =>
        h (.inr ((List.prefix_append_right_inj _).mpr hr))
      rw [Text.without_eq_of_append, Text.without_of_not_isPrefix hbare, dropOpening_openingAre]
    · rw [Text.without_of_not_isPrefix hare, dropOpening_of_not his hare]

private theorem count_without_bare_lt (h : openingBare name <+: r) :
    (without (openingBare name) (without (openingAre name) r)).count ' ' < r.count ' ' := by
  by_cases hare : openingAre name <+: r
  · exact Nat.lt_of_le_of_lt (count_without_le _ _) (count_without_lt hare (by simp [openingAre]))
  · rw [Text.without_of_not_isPrefix hare]
    exact count_without_lt h (by simp [openingBare])

private theorem count_dropName_lt (h : NameTwice name s) :
    (dropName name s).count ' ' < (dropOpening name s).count ' ' := by
  rw [dropName_eq]
  rcases h with ⟨r, rfl⟩ | ⟨r, rfl⟩
  · rw [List.append_assoc, Text.without_eq_of_append, dropOpening_openingIs]
    exact count_without_bare_lt (List.prefix_append _ r)
  · rw [List.append_assoc, dropOpening_openingAre]
    have his := not_openingIs_of_openingAre (List.prefix_append (openingAre name)
      (openingBare name ++ r))
    rw [Text.without_of_not_isPrefix his, Text.without_eq_of_append]
    exact count_without_lt (List.prefix_append _ r) (by simp [openingBare])

/-- The long description is the unmarked text without one opening and with a capital first
character, unless the name follows again on the verb. -/
theorem long_drops_once_iff (name raw : List Char) :
    long name raw = capitalize (dropOpening name (unmarked raw)) ↔
      ¬ NameTwice name (unmarked raw) := by
  constructor
  · intro h htwice
    have hcount := congrArg (List.count ' ') h
    rw [long, count_capitalize, count_capitalize] at hcount
    exact absurd hcount (Nat.ne_of_lt (count_dropName_lt htwice))
  · intro h
    rw [long, dropName_eq_dropOpening h]

/-- Here not even the second name is left. -/
theorem long_drops_twice_items :
    long "Items".toList "Items are Items of an invoice.".toList = "Of an invoice.".toList ∧
      capitalize (dropOpening "Items".toList (unmarked "Items are Items of an invoice.".toList)) =
        "Items of an invoice.".toList := by
  decide +kernel

end SchemaDocs.Comment
