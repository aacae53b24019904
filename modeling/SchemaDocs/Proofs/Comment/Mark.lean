import SchemaDocs.Comment
import SchemaDocs.Proofs.Text.Strip
import SchemaDocs.Proofs.Text.Uppercase

/-!
# Marks that survive

The mark of a deprecated declaration is removed from a comment, but it can come back: when whole
marks stood inside a mark, and when the first character of a description completes one in upper
case. In no other way is there a mark in a description. Main statement: `descriptions_unmarked_iff`.
-/

namespace SchemaDocs.Comment

open Text (capitalize upper)

variable {name raw s : List Char}

/-- What follows the first character of a mark. -/
def markRest : List Char := ['e', 'p', 'r', 'e', 'c', 'a', 't', 'e', 'd', ':', ' ']

/-- The mark of a deprecated declaration. -/
def mark : List Char := 'D' :: markRest

example : mark = "Deprecated: ".toList := by decide

/-- The mark with a small first character. -/
def smallMark : List Char := 'd' :: markRest

/-- The text without its marks. -/
def unmark (s : List Char) : List Char := Text.remove 'D' markRest s

/-- A mark with whole marks inside, which their removal puts together. -/
def NestedMark (s : List Char) : Prop := unmark s = mark

/-! ## What is dropped from the start -/

theorem dropName_isSuffix (name s : List Char) : dropName name s <:+ s :=
  (Text.without_isSuffix _ _).trans <|
    (Text.without_isSuffix _ _).trans (Text.without_isSuffix _ s)

/-- What the long description leaves out at the start of a text. -/
def dropped (name s : List Char) : List Char := s.take (s.length - (dropName name s).length)

private theorem dropped_append_dropName (name s : List Char) :
    dropped name s ++ dropName name s = s :=
  List.suffix_iff_eq_append.mp (dropName_isSuffix name s)

/-! ## Upper case -/

private theorem eq_of_D_mem_upper {c : Char} (h : 'D' ∈ upper c) : c = 'd' ∨ c = 'D' := by
  have hc := Text.toNat_mem_sources h (by decide)
  have hsources : Text.sources 'D'.toNat = ['d'.toNat, 'D'.toNat] := by decide
  rw [hsources] at hc
  rcases List.mem_cons.mp hc with hd | hD
  · exact .inl (Char.toNat_inj.mp hd)
  · exact .inr (Char.toNat_inj.mp (List.mem_singleton.mp hD))

private theorem e_not_mem_upper (c : Char) : 'e' ∉ upper c := by
  intro h
  have hc : c = 'e' := Text.eq_of_mem_upper (by decide) h (by decide)
  rw [hc] at h
  exact absurd h (by decide)

private theorem isPrefix_of_upper {c : Char} {a a' b : List Char}
    (hupper : upper c = a ++ 'D' :: a')
    (hs : markRest ++ b = a' ++ s) : mark <+: c :: s ∨ smallMark <+: c :: s := by
  cases a' with
  | nil =>
    rcases eq_of_D_mem_upper (hupper ▸ List.mem_append_right a List.mem_cons_self) with rfl | rfl
    · exact .inr ⟨b, congrArg _ hs⟩
    · exact .inl ⟨b, congrArg _ hs⟩
  | cons e a' =>
    have he : e = 'e' := (List.cons.inj hs).1.symm
    exact absurd (by simp [hupper, he]) (e_not_mem_upper c)

/-- A mark stands in a text with a capital first character if it stood in it before, or if that
character completes it. -/
theorem isInfix_capitalize_iff : mark <:+: capitalize s ↔ mark <:+: s ∨ smallMark <+: s := by
  cases s with
  | nil => simp [smallMark]
  | cons c s =>
    constructor
    · rintro ⟨a, b, h⟩
      rw [capitalize, List.append_assoc] at h
      rcases List.append_eq_append_iff.mp h with ⟨a', hupper, hs⟩ | ⟨a', rfl, rfl⟩
      · cases a' with
        | nil => exact .inl ⟨[c], b, congrArg (c :: ·) hs⟩
        | cons d a' =>
          obtain ⟨rfl, hrest⟩ := List.cons.inj hs
          exact (isPrefix_of_upper hupper hrest).imp_left List.IsPrefix.isInfix
      · exact .inl ⟨c :: a', b, by simp⟩
    · rintro (h | ⟨b, h⟩)
      · rcases List.infix_cons_iff.mp h with ⟨b, h⟩ | h
        · cases h
          exact ⟨[], b, rfl⟩
        · exact h.trans (List.suffix_append (upper c) s).isInfix
      · cases h
        exact ⟨[], b, rfl⟩

/-! ## The short description -/

private theorem paragraph_isPrefix (s : List Char) : paragraph s <+: s := by
  fun_induction paragraph s with
  | case1 => exact List.prefix_rfl
  | case2 => exact List.prefix_rfl
  | case3 => exact List.nil_prefix
  | case4 c d cs _ ih => exact (List.prefix_cons_inj c).mpr ih

private theorem sentenceAfter_isPrefix (a b c : Char) (s : List Char) :
    sentenceAfter a b c s <+: s := by
  fun_induction sentenceAfter a b c s with
  | case1 => exact List.prefix_rfl
  | case2 => exact List.nil_prefix
  | case3 a b c d s _ ih => exact (List.prefix_cons_inj d).mpr ih

theorem dropPeriod_isPrefix (s : List Char) : dropPeriod s <+: s := by
  unfold dropPeriod
  split
  · exact List.dropLast_prefix s
  · exact List.prefix_rfl

private theorem short_isPrefix (name raw : List Char) : short name raw <+: long name raw :=
  (dropPeriod_isPrefix _).trans <|
    (sentenceAfter_isPrefix _ _ _ _).trans (paragraph_isPrefix _)

/-! ## Descriptions -/

private theorem isInfix_long_iff : mark <:+: long name raw ↔
    smallMark <+: dropName name (unmarked raw) ∨
      ∃ x y z, clean raw = x ++ y ++ z ∧ NestedMark y ∧
        dropped name (unmarked raw) <+: unmark x := by
  have hsplit : unmark (clean raw) = dropped name (unmarked raw) ++ dropName name (unmarked raw) :=
    (dropped_append_dropName name (unmarked raw)).symm
  rw [long, isInfix_capitalize_iff, or_comm]
  exact or_congr_right (Text.isInfix_of_remove_iff (by decide) hsplit)

/-- There is no mark in the descriptions of a declaration, unless what is left when the name is
dropped starts with a small mark, or the cleaned comment has a mark with whole marks inside that the
dropped name does not reach. -/
theorem descriptions_unmarked_iff (name raw : List Char) :
    (¬ mark <:+: long name raw ∧ ¬ mark <:+: short name raw) ↔
      ¬ smallMark <+: dropName name (unmarked raw) ∧
        ¬ ∃ x y z, clean raw = x ++ y ++ z ∧ NestedMark y ∧
          dropped name (unmarked raw) <+: unmark x := by
  rw [← not_or (p := smallMark <+: _), ← isInfix_long_iff]
  constructor
  · exact fun h => h.1
  · intro h
    exact ⟨h, fun hshort => h (hshort.trans (short_isPrefix name raw).isInfix)⟩

/-- A mark with a mark inside comes back in both descriptions. -/
theorem descriptions_marked_old :
    mark <:+: long [] "DeprecaDeprecated: ted: Old.".toList ∧
      mark <:+: short [] "DeprecaDeprecated: ted: Old.".toList :=
  ⟨⟨[], "Old.".toList, by decide +kernel⟩, ⟨[], "Old".toList, by decide +kernel⟩⟩

/-- So does one whose first character is small. -/
example : mark <:+: long [] "Deprecated: deprecated: Old.".toList :=
  ⟨[], "Old.".toList, by decide +kernel⟩

end SchemaDocs.Comment
