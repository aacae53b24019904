import Mathlib.Data.List.Basic
import SchemaDocs.Files.Path

/-!
# Names of paths

Joining a plain name to a path adds one name at the end, whatever the path is; and the path above
another one starts at the same place and has the first of its names.
-/

namespace SchemaDocs.Path

theorem not_mem_of_mem_splitOn {c : Char} {cs piece : List Char} (h : piece ∈ cs.splitOn c) :
    c ∉ piece := by
  induction cs generalizing piece with
  | nil =>
    rw [List.splitOn_nil, List.mem_singleton] at h
    simp [h]
  | cons d cs ih =>
    rw [List.splitOn_cons_eq_if_modifyHead] at h
    split at h
    · rcases List.mem_cons.mp h with rfl | h
      · simp
      · exact ih h
    · rename_i hd
      obtain ⟨first, rest, hsplit⟩ := List.exists_cons_of_ne_nil (List.splitOn_ne_nil c cs)
      rw [hsplit, List.modifyHead_cons] at h
      rcases List.mem_cons.mp h with rfl | h
      · have hfirst := ih (hsplit ▸ List.mem_cons_self)
        have hne : c ≠ d := fun heq => hd (by simp [heq])
        simp [hne, hfirst]
      · exact ih (hsplit ▸ List.mem_cons_of_mem _ h)

/-! ## Joining -/

section
variable {dir name : String} (hslash : '/' ∉ name.toList)
include hslash

theorem isAbsolute_of_plain : isAbsolute name = false := by
  unfold isAbsolute
  cases hname : name.toList with
  | nil => rfl
  | cons c cs =>
    have hc : c ≠ '/' := fun heq => hslash (by simp [hname, heq])
    simp [hc]

theorem endsInSlash_of_plain : endsInSlash name = false := by
  have hlast : name.toList.getLast? ≠ some '/' := fun h => hslash (List.mem_of_getLast? h)
  simpa [endsInSlash] using hlast

theorem join_cases (dir : String) :
    (dir = "" ∧ join dir name = name) ∨
      (∃ above, dir.toList = above ++ ['/'] ∧ join dir name = dir ++ name) ∨
      (dir ≠ "" ∧ join dir name = dir ++ "/" ++ name) := by
  unfold join
  rw [isAbsolute_of_plain hslash]
  split
  · rename_i h
    exact .inl ⟨by simpa using h, rfl⟩
  · rename_i h
    split
    · rename_i hends
      obtain ⟨above, habove⟩ := List.getLast?_eq_some_iff.mp (by simpa [endsInSlash] using hends)
      exact .inr (.inl ⟨above, habove, rfl⟩)
    · exact .inr (.inr ⟨by simpa using h, rfl⟩)

theorem isAbsolute_join : isAbsolute (join dir name) = isAbsolute dir := by
  rcases join_cases hslash dir with ⟨rfl, hjoin⟩ | ⟨above, habove, hjoin⟩ | ⟨hdir, hjoin⟩
  · rw [hjoin, isAbsolute_of_plain hslash]
    rfl
  · rw [hjoin, isAbsolute, isAbsolute, String.toList_append, habove]
    simp
  · have hchars : dir.toList ≠ [] := fun h => hdir (String.toList_eq_nil_iff.mp h)
    obtain ⟨c, cs, hcs⟩ := List.exists_cons_of_ne_nil hchars
    simp [hjoin, isAbsolute, hcs]

variable (hne : name ≠ "")
include hne

theorem names_of_plain : names name = [name] := by
  have hchars : name.toList ≠ [] := fun h => hne (String.toList_eq_nil_iff.mp h)
  rw [names, List.splitOn_eq_singleton hslash]
  simp [hchars]

theorem names_join : names (join dir name) = names dir ++ [name] := by
  have hplain := names_of_plain hslash hne
  have hdeep (above : List Char) :
      (((above ++ '/' :: name.toList).splitOn '/').filter (· ≠ [])).map String.ofList =
        ((above.splitOn '/').filter (· ≠ [])).map String.ofList ++ [name] := by
    rw [List.splitOn_append_cons_self, List.filter_append, List.map_append]
    exact congrArg _ hplain
  rcases join_cases hslash dir with ⟨rfl, hjoin⟩ | ⟨above, habove, hjoin⟩ | ⟨-, hjoin⟩
  · rw [hjoin, hplain]
    rfl
  · have hdir : names dir = ((above.splitOn '/').filter (· ≠ [])).map String.ofList := by
      rw [names, habove, List.splitOn_append_cons_self]
      simp
    rw [hjoin, hdir, ← hdeep, names, String.toList_append, habove, List.append_assoc,
      List.singleton_append]
  · rw [hjoin, names, names, ← hdeep]
    simp

theorem endsInSlash_join : endsInSlash (join dir name) = false := by
  have hchars : name.toList ≠ [] := fun h => hne (String.toList_eq_nil_iff.mp h)
  have hplain := endsInSlash_of_plain hslash
  unfold endsInSlash at hplain ⊢
  rcases join_cases hslash dir with ⟨-, hjoin⟩ | ⟨-, -, hjoin⟩ | ⟨-, hjoin⟩
  · rw [hjoin, hplain]
  · rw [hjoin, String.toList_append, List.getLast?_append_of_ne_nil _ hchars, hplain]
  · rw [hjoin, String.toList_append, List.getLast?_append_of_ne_nil _ hchars, hplain]

end

/-! ## The path above -/

theorem dropEmpty_suffix (pieces : List (List Char)) : dropEmpty pieces <:+ pieces := by
  induction pieces with
  | nil => exact List.suffix_refl _
  | cons piece before ih =>
    rw [dropEmpty]
    split
    · exact ih.trans (List.suffix_cons _ _)
    · exact List.suffix_refl _

theorem intercalate_prefix (sep : List Char) {ps qs : List (List Char)} (h : ps <+: qs) :
    sep.intercalate ps <+: sep.intercalate qs := by
  obtain ⟨more, rfl⟩ := h
  induction ps with
  | nil => exact List.nil_prefix
  | cons p ps ih =>
    cases ps with
    | nil =>
      cases more with
      | nil => exact List.prefix_refl _
      | cons q more =>
        rw [List.intercalate_singleton, List.singleton_append, List.intercalate_cons_cons,
          List.append_assoc]
        exact List.prefix_append _ _
    | cons p' ps =>
      rw [List.cons_append, List.cons_append, List.intercalate_cons_cons,
        List.intercalate_cons_cons]
      exact (List.prefix_append_right_inj _).mpr ih

theorem exists_pieces_of_parent? {path parent : String} (h : parent? path = some parent) :
    ∃ pieces, pieces <+: path.toList.splitOn '/' ∧
      parent = String.ofList
        (if isAbsolute path = true ∧ ['/'].intercalate pieces = [] then ['/']
          else ['/'].intercalate pieces) := by
  have hpieces : (if isAbsolute path = true then
        ((if isAbsolute path = true then path.toList.drop 1 else path.toList).splitOn '/').reverse
          ++ [[]]
      else ((if isAbsolute path = true then path.toList.drop 1 else
        path.toList).splitOn '/').reverse) = (path.toList.splitOn '/').reverse := by
    split
    · rename_i habsolute
      obtain ⟨cs, hcs⟩ : ∃ cs, path.toList = '/' :: cs :=
        List.head?_eq_some_iff.mp (by simpa [isAbsolute] using habsolute)
      have hsplit := List.splitOn_append_cons_self (a := '/') [] cs
      rw [List.nil_append, List.splitOn_nil] at hsplit
      simp [hcs, hsplit]
    · rfl
  simp only [parent?, hpieces] at h
  split at h
  · cases h
  · rename_i piece before hdrop
    cases h
    refine ⟨(dropEmpty before).reverse, ?_, rfl⟩
    have hsuffix : before <:+ (path.toList.splitOn '/').reverse :=
      (List.suffix_cons piece before).trans (hdrop ▸ dropEmpty_suffix _)
    rw [← List.reverse_suffix, List.reverse_reverse]
    exact (dropEmpty_suffix before).trans hsuffix

/-- The path above starts where the path does, and has the first of its names. -/
theorem names_parent?_prefix {path parent : String} (h : parent? path = some parent) :
    isAbsolute parent = isAbsolute path ∧ names parent <+: names path := by
  obtain ⟨pieces, hpieces, rfl⟩ := exists_pieces_of_parent? h
  have hchars : ['/'].intercalate pieces <+: path.toList := by
    have hprefix := intercalate_prefix ['/'] hpieces
    rwa [List.intercalate_splitOn] at hprefix
  cases hrest : ['/'].intercalate pieces with
  | nil =>
    cases habsolute : isAbsolute path with
    | false => exact ⟨rfl, List.nil_prefix⟩
    | true => exact ⟨rfl, List.nil_prefix⟩
  | cons c cs =>
    have hne : pieces ≠ [] := by
      rintro rfl
      cases hrest
    have hslash : ∀ piece ∈ pieces, '/' ∉ piece := fun piece hpiece =>
      not_mem_of_mem_splitOn (hpieces.subset hpiece)
    obtain ⟨tail, htail⟩ := hchars
    rw [hrest] at htail
    refine ⟨by simp [isAbsolute, ← htail], ?_⟩
    have hsplit := List.splitOn_intercalate '/' hslash hne
    rw [hrest] at hsplit
    simp only [names, reduceCtorEq, and_false, if_false, String.toList_ofList, hsplit]
    exact (hpieces.filter _).map _

end SchemaDocs.Path
