import SchemaDocs.Comment
import SchemaDocs.Proofs.Text.Trim

/-!
# Cleaned comments

A text is a row of visible characters, each with the white space before it, and white space at its
end. Its cleaned form has the same visible characters; between two of them stands nothing where
nothing stood, an empty line where at least two lines ended, and one space otherwise. Main
statement: `clean_normal`.
-/

namespace SchemaDocs.Comment

open Text (Blank Trimmed isBlank trim)

/-! ## Glyphs -/

/-- A visible character with the white space before it. -/
structure Glyph where
  gap : List Char
  char : Char
  gap_blank : Blank gap
  char_visible : isBlank char = false

/-- A glyph as it stands in a text. -/
def Glyph.text (g : Glyph) : List Char := g.gap ++ [g.char]

/-- What cleaning leaves of the white space between two visible characters. -/
def separator (gap : List Char) : List Char :=
  if gap = [] then [] else if 2 ≤ gap.countP isBreak then ['\n', '\n'] else [' ']

/-- The visible characters with what cleaning leaves between them. -/
def tidy : List Glyph → List Char
  | [] => []
  | g :: gs => g.char :: gs.flatMap fun g => separator g.gap ++ [g.char]

variable {s after : List Char}

theorem exists_glyphs (s : List Char) : ∃ (glyphs : List Glyph) (after : List Char),
    Blank after ∧ s = glyphs.flatMap Glyph.text ++ after := by
  induction s with
  | nil => exact ⟨[], [], Text.blank_nil, rfl⟩
  | cons c s ih =>
    obtain ⟨glyphs, after, hafter, rfl⟩ := ih
    by_cases hc : isBlank c = true
    · cases glyphs with
      | nil => exact ⟨[], c :: after, by simpa [Blank, hc] using hafter, rfl⟩
      | cons g gs =>
        have hgap : Blank (c :: g.gap) := by simpa [Blank, hc] using g.gap_blank
        exact ⟨⟨c :: g.gap, g.char, hgap, g.char_visible⟩ :: gs, after, hafter, rfl⟩
    · have hc : isBlank c = false := by simpa using hc
      exact ⟨⟨[], c, Text.blank_nil, hc⟩ :: glyphs, after, hafter, rfl⟩

/-! ## Gaps -/

private theorem isBlank_of_isBreak {c : Char} (h : isBreak c = true) : isBlank c = true := by
  simp only [isBreak, Bool.or_eq_true, beq_iff_eq] at h
  rcases h with rfl | rfl <;> decide

/-- The gap after more white space. -/
def Gap.widen (gap : Gap) (s : List Char) : Gap :=
  ⟨gap.breaks + s.countP isBreak, gap.blank || s.any fun c => !isBreak c⟩

theorem cleanAfter_blank (started : Bool) (gap : Gap) (hs : Blank s) (rest : List Char) :
    cleanAfter started gap (s ++ rest) = cleanAfter started (gap.widen s) rest := by
  induction s generalizing gap with
  | nil => simp [Gap.widen]
  | cons c s ih =>
    have hc : isBlank c = true := hs c List.mem_cons_self
    have hs : Blank s := fun d hd => hs d (List.mem_cons_of_mem c hd)
    by_cases hbreak : isBreak c = true
    · simp [cleanAfter, hbreak, ih _ hs, Gap.widen, Nat.add_assoc, Nat.add_comm 1]
    · simp [cleanAfter, hbreak, hc, ih _ hs, Gap.widen]

theorem text_widen (gap : List Char) : ((⟨0, false⟩ : Gap).widen gap).text = separator gap := by
  cases gap with
  | nil => rfl
  | cons c gap =>
    simp only [Gap.widen, separator, reduceCtorEq, if_false]
    generalize hn : (c :: gap).countP isBreak = n
    match n with
    | 0 =>
      have hc : isBreak c = false := by
        by_contra hc
        simp [List.countP_cons, hc] at hn
      simp [Gap.text, hc]
    | 1 => rfl
    | n + 2 => simp [Gap.text]

/-! ## Cleaned texts -/

private theorem cleanAfter_of_blank (started : Bool) (gap : Gap) (hs : Blank s) :
    cleanAfter started gap s = [] := by
  have hrest := cleanAfter_blank started gap hs []
  rwa [List.append_nil] at hrest

theorem cleanAfter_visible {c : Char} (started : Bool) (gap : Gap) (hc : isBlank c = false)
    (rest : List Char) : cleanAfter started gap (c :: rest) =
      (if started then gap.text else []) ++ c :: cleanAfter true ⟨0, false⟩ rest := by
  have hbreak : isBreak c = false := by
    by_contra h
    simp [isBlank_of_isBreak (by simpa using h)] at hc
  simp [cleanAfter, hbreak, hc]

private theorem cleanAfter_glyph (started : Bool) (g : Glyph) (rest : List Char) :
    cleanAfter started ⟨0, false⟩ (g.text ++ rest) =
      (if started then separator g.gap else []) ++ g.char :: cleanAfter true ⟨0, false⟩ rest := by
  rw [Glyph.text, List.append_assoc, cleanAfter_blank _ _ g.gap_blank, List.singleton_append,
    cleanAfter_visible _ _ g.char_visible, text_widen]

private theorem cleanAfter_glyphs (glyphs : List Glyph) (hafter : Blank after) :
    cleanAfter true ⟨0, false⟩ (glyphs.flatMap Glyph.text ++ after) =
      glyphs.flatMap fun g => separator g.gap ++ [g.char] := by
  induction glyphs with
  | nil => exact cleanAfter_of_blank true ⟨0, false⟩ hafter
  | cons g gs ih =>
    rw [List.flatMap_cons, List.append_assoc, cleanAfter_glyph, ih]
    simp

theorem clean_glyphs (glyphs : List Glyph) (hafter : Blank after) :
    clean (glyphs.flatMap Glyph.text ++ after) = tidy glyphs := by
  cases glyphs with
  | nil => exact cleanAfter_of_blank false ⟨0, false⟩ hafter
  | cons g gs =>
    rw [clean, List.flatMap_cons, List.append_assoc, cleanAfter_glyph, cleanAfter_glyphs gs hafter]
    rfl

theorem blank_separator (gap : List Char) : Blank (separator gap) := by
  unfold separator
  split
  · exact Text.blank_nil
  · split <;> simp [Blank, isBlank]

private theorem separator_separator (gap : List Char) :
    separator (separator gap) = separator gap := by
  unfold separator
  split
  · rfl
  · split <;> decide

/-- A glyph with the white space that cleaning leaves before it. -/
def Glyph.settle (g : Glyph) : Glyph :=
  { g with gap := separator g.gap, gap_blank := blank_separator g.gap }

/-- A cleaned text is a text of glyphs that are cleaned themselves. -/
theorem exists_glyphs_tidy (glyphs : List Glyph) : ∃ glyphs' : List Glyph,
    tidy glyphs = glyphs'.flatMap Glyph.text ∧ tidy glyphs' = tidy glyphs := by
  cases glyphs with
  | nil => exact ⟨[], rfl, rfl⟩
  | cons g gs =>
    refine ⟨⟨[], g.char, Text.blank_nil, g.char_visible⟩ :: gs.map Glyph.settle, ?_, ?_⟩
    · rw [List.flatMap_cons, List.flatMap_map]
      rfl
    · simp only [tidy, List.flatMap_map, Glyph.settle, separator_separator]

private theorem tidy_trimmed (glyphs : List Glyph) : Trimmed (tidy glyphs) := by
  cases glyphs with
  | nil => simp [tidy, Trimmed]
  | cons g gs =>
    refine ⟨by simpa [tidy] using g.char_visible, ?_⟩
    rcases List.eq_nil_or_concat gs with rfl | ⟨gs, last, rfl⟩
    · simpa [tidy] using g.char_visible
    · have hlast : (tidy (g :: (gs ++ [last]))).getLast? = some last.char := by
        rw [tidy, List.flatMap_append, ← List.cons_append, List.getLast?_append]
        simp
      rw [List.concat_eq_append, hlast]
      simpa using last.char_visible

private theorem filter_visible_of_blank (hs : Blank s) : s.filter (!isBlank ·) = [] :=
  List.filter_eq_nil_iff.mpr fun c hc => by simp [hs c hc]

private theorem filter_visible_text (g : Glyph) : g.text.filter (!isBlank ·) = [g.char] := by
  simp [Glyph.text, filter_visible_of_blank g.gap_blank, g.char_visible]

private theorem filter_visible_tidy (glyphs : List Glyph) :
    (tidy glyphs).filter (!isBlank ·) = glyphs.map Glyph.char := by
  cases glyphs with
  | nil => rfl
  | cons g gs =>
    have hrest : (gs.flatMap fun g => separator g.gap ++ [g.char]).filter (!isBlank ·) =
        gs.map Glyph.char := by
      simp [List.filter_flatMap, filter_visible_of_blank (blank_separator _), Glyph.char_visible,
        List.map_eq_flatMap]
    rw [tidy, List.filter_cons_of_pos (by simp [g.char_visible]), hrest]
    rfl

theorem trim_clean (s : List Char) : trim (clean s) = clean s := by
  obtain ⟨glyphs, after, hafter, rfl⟩ := exists_glyphs s
  rw [clean_glyphs glyphs hafter, Text.trim_eq_iff]
  exact ⟨tidy_trimmed glyphs, [], [], Text.blank_nil, Text.blank_nil, by simp⟩

/-- A text is a row of visible characters in white space; cleaning keeps the characters, leaves
nothing, an empty line or a space between two of them, and nothing at the ends. A text that is
cleaned stays as it is. -/
theorem clean_normal (s : List Char) : ∃ (glyphs : List Glyph) (after : List Char),
    Blank after ∧ s = glyphs.flatMap Glyph.text ++ after ∧ clean s = tidy glyphs ∧
      (clean s).filter (!isBlank ·) = s.filter (!isBlank ·) ∧
      clean (clean s) = clean s ∧ trim (clean s) = clean s := by
  obtain ⟨glyphs, after, hafter, rfl⟩ := exists_glyphs s
  have hclean := clean_glyphs glyphs hafter
  refine ⟨glyphs, after, hafter, rfl, hclean, ?_, ?_, trim_clean _⟩
  · rw [hclean, filter_visible_tidy, List.filter_append, filter_visible_of_blank hafter]
    simp [List.filter_flatMap, filter_visible_text, List.map_eq_flatMap]
  · obtain ⟨glyphs', htidy, hsame⟩ := exists_glyphs_tidy glyphs
    have hagain := clean_glyphs glyphs' Text.blank_nil
    rwa [List.append_nil, ← htidy, hsame, ← hclean] at hagain

end SchemaDocs.Comment
