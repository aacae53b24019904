import Mathlib.Data.List.TakeWhile
import SchemaDocs.Text.Blank

/-!
# Trimmed texts

A text that is trimmed is what is left between white space at both ends. Main statement:
`trim_eq_iff`.
-/

namespace SchemaDocs.Text

variable {s t before after : List Char} {c : Char}

/-- A row of white space. -/
def Blank (s : List Char) : Prop := ∀ c ∈ s, isBlank c = true

@[simp] theorem blank_nil : Blank [] := nofun

/-- No white space stands at an end of a text. -/
def Trimmed (t : List Char) : Prop :=
  (∀ c ∈ t.head?, isBlank c = false) ∧ ∀ c ∈ t.getLast?, isBlank c = false

theorem Trimmed.reverse (h : Trimmed t) : Trimmed t.reverse := by
  rw [Trimmed, List.head?_reverse, List.getLast?_reverse]
  exact ⟨h.2, h.1⟩

theorem Trimmed.cons (h : Trimmed t) (hne : t ≠ []) (hc : isBlank c = false) :
    Trimmed (c :: t) := by
  refine ⟨by simpa using hc, fun d hd => h.2 d ?_⟩
  rwa [List.getLast?_cons_of_ne_nil hne] at hd

theorem dropWhile_append_of_blank (hbefore : Blank before)
    (ht : ∀ c ∈ t.head?, isBlank c = false) : (before ++ t).dropWhile isBlank = t := by
  rw [List.dropWhile_append_of_pos hbefore]
  cases t with
  | nil => rfl
  | cons c t => exact List.dropWhile_cons_of_neg (by simpa using ht)

theorem exists_append_dropWhile (s : List Char) : ∃ before, Blank before ∧
    s = before ++ s.dropWhile isBlank ∧ ∀ c ∈ (s.dropWhile isBlank).head?, isBlank c = false := by
  refine ⟨s.takeWhile isBlank, fun c hc => List.mem_takeWhile_imp hc,
    List.takeWhile_append_dropWhile.symm, fun c hc => ?_⟩
  have hhead := List.head?_dropWhile_not isBlank s
  rwa [Option.mem_def.mp hc] at hhead

/-- What is left of a text is what stands between the white space at its ends. -/
theorem trim_eq_iff : trim s = t ↔
    Trimmed t ∧ ∃ before after, Blank before ∧ Blank after ∧ s = before ++ t ++ after := by
  constructor
  · rintro rfl
    obtain ⟨before, hbefore, hs, hhead⟩ := exists_append_dropWhile s
    obtain ⟨after, hafter, hrest, hlast⟩ := exists_append_dropWhile (s.dropWhile isBlank).reverse
    have hsplit : s.dropWhile isBlank = trim s ++ after.reverse := by
      rw [trim, ← List.reverse_append, ← hrest, List.reverse_reverse]
    refine ⟨⟨fun c hc => hhead c ?_, fun c hc => hlast c ?_⟩, before, after.reverse, hbefore,
      fun c hc => hafter c (List.mem_reverse.mp hc), ?_⟩
    · rw [hsplit, List.head?_append, Option.mem_def.mp hc]
      rfl
    · rwa [trim, List.getLast?_reverse] at hc
    · rw [List.append_assoc, ← hsplit, ← hs]
  · intro h
    obtain ⟨ht, before, after, hbefore, hafter, rfl⟩ := h
    cases t with
    | nil =>
      have hall : ∀ c ∈ before ++ [] ++ after, isBlank c = true := by
        simpa [or_imp, forall_and] using ⟨hbefore, hafter⟩
      rw [trim, List.dropWhile_eq_nil_iff.mpr hall]
      rfl
    | cons c t =>
      have hafter : Blank after.reverse := fun c hc => hafter c (List.mem_reverse.mp hc)
      rw [trim, List.append_assoc, dropWhile_append_of_blank hbefore (by simpa using ht.1),
        List.reverse_append, dropWhile_append_of_blank hafter ht.reverse.1, List.reverse_reverse]

end SchemaDocs.Text
