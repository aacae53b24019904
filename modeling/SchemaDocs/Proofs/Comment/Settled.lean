import SchemaDocs.Proofs.Comment.Cleaning
import SchemaDocs.Proofs.Comment.Mark

/-!
# Descriptions stay clean

Three rewritings follow when a comment has been cleaned: its marks are removed, the name goes from
the start, and the first character is raised. Each leaves a clean text. A clean text that is not
empty is one that can stand after a space, and told so, the beginning is no special case: all gaps
are narrow, and the white space at the end is none. Main statement: `long_settled`.
-/

namespace SchemaDocs.Comment

open Text (Blank capitalize isBlank trim upper)

variable {c : Char} {gap s t x y : List Char}

/-! ## Settled texts -/

/-- The white space that a clean text may have before a visible character. -/
def Narrow (gap : List Char) : Prop := gap = [] ∨ gap = [' '] ∨ gap = ['\n', '\n']

/-- With `gap` before it, a text has narrow gaps only, and no white space at its end. -/
def Settled (gap : List Char) : List Char → Prop
  | [] => gap = []
  | c :: s => if isBlank c then Settled (gap ++ [c]) s else Narrow gap ∧ Settled [] s

theorem settled_blank (hc : isBlank c = true) : Settled gap (c :: s) ↔ Settled (gap ++ [c]) s := by
  simp [Settled, hc]

theorem settled_visible (hc : isBlank c = false) :
    Settled gap (c :: s) ↔ Narrow gap ∧ Settled [] s := by
  simp [Settled, hc]

theorem settled_cons : Settled gap (c :: s) ↔
    isBlank c = true ∧ Settled (gap ++ [c]) s ∨ isBlank c = false ∧ Narrow gap ∧ Settled [] s := by
  cases hc : isBlank c with
  | true => simp [settled_blank hc]
  | false => simp [settled_visible hc]

private theorem settled_append_of_blank (hx : Blank x) :
    Settled gap (x ++ s) ↔ Settled (gap ++ x) s := by
  induction x generalizing gap with
  | nil => simp
  | cons c x ih =>
    have hc : isBlank c = true := hx c List.mem_cons_self
    rw [List.cons_append, settled_blank hc, ih fun d hd => hx d (List.mem_cons_of_mem c hd),
      List.append_assoc, List.singleton_append]

theorem Settled.exists_narrow (h : Settled gap s) : ∃ more, Narrow (gap ++ more) := by
  induction s generalizing gap with
  | nil => exact ⟨[], .inl (by simpa [Settled] using h)⟩
  | cons c s ih =>
    rcases settled_cons.mp h with ⟨-, hs⟩ | ⟨-, hgap, -⟩
    · obtain ⟨more, hmore⟩ := ih hs
      exact ⟨c :: more, by simpa using hmore⟩
    · exact ⟨[], by simpa using hgap⟩

private theorem not_narrow_space {more : List Char} (hne : more ≠ []) :
    ¬ Narrow (gap ++ ' ' :: more) := by
  rintro (h | h | h)
  · simp at h
  · have hlength := congrArg List.length h
    have hpos := List.length_pos_iff.mpr hne
    simp at hlength
    omega
  · match gap with
    | [] => simp at h
    | [_] => simp at h
    | _ :: _ :: _ => simp at h

theorem Settled.after_space (h : Settled (gap ++ [' ']) s) :
    ∃ c t, s = c :: t ∧ isBlank c = false ∧ Settled [] t := by
  cases s with
  | nil => simp [Settled] at h
  | cons c t =>
    rcases settled_cons.mp h with ⟨-, ht⟩ | ⟨hc, -, ht⟩
    · obtain ⟨more, hmore⟩ := ht.exists_narrow
      rw [List.append_assoc, List.append_assoc, List.singleton_append] at hmore
      exact absurd hmore (not_narrow_space (by simp))
    · exact ⟨c, t, rfl, hc, ht⟩

private theorem Settled.of_after_space {gap' : List Char} (h : Settled (gap ++ [' ']) s)
    (hgap : Narrow gap') : Settled gap' s := by
  obtain ⟨c, t, rfl, hc, ht⟩ := h.after_space
  exact (settled_visible hc).mpr ⟨hgap, ht⟩

private theorem narrow_space : Narrow [' '] := .inr (.inl rfl)

/-! ## Settled and clean -/

private theorem narrow_separator (gap : List Char) : Narrow (separator gap) := by
  unfold separator
  split
  · exact .inl rfl
  · split
    · exact .inr (.inr rfl)
    · exact narrow_space

private theorem separator_of_narrow (h : Narrow gap) : separator gap = gap := by
  rcases h with rfl | rfl | rfl <;> decide

private theorem settled_glyphs (glyphs : List Glyph) :
    Settled [] (glyphs.flatMap fun g => separator g.gap ++ [g.char]) := by
  induction glyphs with
  | nil => rfl
  | cons g gs ih =>
    rw [List.flatMap_cons, List.append_assoc, settled_append_of_blank (blank_separator g.gap),
      List.singleton_append, settled_visible g.char_visible]
    exact ⟨narrow_separator g.gap, ih⟩

private theorem settled_tidy (glyphs : List Glyph) :
    tidy glyphs = [] ∨ Settled [' '] (tidy glyphs) := by
  cases glyphs with
  | nil => exact .inl rfl
  | cons g gs => exact .inr ((settled_visible g.char_visible).mpr ⟨narrow_space, settled_glyphs gs⟩)

private theorem exists_tidy (s : List Char) : ∃ glyphs, clean s = tidy glyphs := by
  obtain ⟨glyphs, after, hafter, rfl⟩ := exists_glyphs s
  exact ⟨glyphs, clean_glyphs glyphs hafter⟩

private theorem clean_eq_nil_or_settled (s : List Char) :
    clean s = [] ∨ Settled [' '] (clean s) := by
  obtain ⟨glyphs, hclean⟩ := exists_tidy s
  exact hclean ▸ settled_tidy glyphs

private theorem Gap.widen_widen (gap : Gap) (x y : List Char) :
    (gap.widen x).widen y = gap.widen (x ++ y) := by
  simp [Gap.widen, Nat.add_assoc, Bool.or_assoc]

private theorem cleanAfter_settled (h : Settled gap s) :
    cleanAfter true ((⟨0, false⟩ : Gap).widen gap) s = gap ++ s := by
  induction s generalizing gap with
  | nil => rw [show gap = [] from h]; rfl
  | cons c s ih =>
    rcases settled_cons.mp h with ⟨hc, hs⟩ | ⟨hc, hgap, hs⟩
    · have hone : Blank [c] := by simpa [Blank] using hc
      have hstep := cleanAfter_blank true ((⟨0, false⟩ : Gap).widen gap) hone s
      rw [List.singleton_append, Gap.widen_widen, ih hs] at hstep
      simpa using hstep
    · have hrest := ih hs
      rw [cleanAfter_visible _ _ hc, text_widen, separator_of_narrow hgap]
      simpa [Gap.widen] using hrest

/-- A text is clean when it is empty or can stand after a space. -/
theorem clean_eq_self_iff : clean s = s ↔ s = [] ∨ Settled [' '] s := by
  constructor
  · exact fun h => h ▸ clean_eq_nil_or_settled s
  · rintro (rfl | h)
    · rfl
    · obtain ⟨c, t, rfl, hc, ht⟩ := @Settled.after_space [] _ h
      have hrest := cleanAfter_settled ht
      rw [clean, cleanAfter_visible _ _ hc]
      exact congrArg (c :: ·) hrest

/-- Between two visible characters of a clean text stands nothing, a space or an empty line. -/
theorem Settled.narrow {a b : Char} (h : Settled gap (x ++ a :: (s ++ b :: y)))
    (ha : isBlank a = false) (hb : isBlank b = false) (hs : Blank s) : Narrow s := by
  induction x generalizing gap with
  | nil =>
    have hrest := ((settled_visible ha).mp h).2
    rw [settled_append_of_blank hs, settled_visible hb] at hrest
    simpa using hrest.1
  | cons c x ih =>
    rcases settled_cons.mp h with ⟨-, hrest⟩ | ⟨-, -, hrest⟩
    · exact ih hrest
    · exact ih hrest

/-! ## Rewritings -/

/-- A mark is visible up to its last character, which is a space. -/
theorem settled_mark_append :
    Settled gap (mark ++ s) ↔ Narrow gap ∧ Settled [' '] s := by
  simp [mark, markRest, Settled, isBlank, Narrow]

/-- What follows the space of a mark can stand where the mark stood. -/
theorem settled_unmark (h : Settled gap s) : Settled gap (unmark s) := by
  induction s using Text.remove_induction 'D' markRest generalizing gap with
  | nil => simpa [unmark] using h
  | part s ih =>
    obtain ⟨hgap, hs⟩ := settled_mark_append.mp h
    rw [unmark, Text.remove_part_append]
    exact ih (@Settled.of_after_space [] _ _ hs hgap)
  | other c s hmark ih =>
    rw [unmark, Text.remove_cons hmark]
    rcases settled_cons.mp h with ⟨hc, hs⟩ | ⟨hc, hgap, hs⟩
    · exact (settled_blank hc).mpr (ih hs)
    · exact (settled_visible hc).mpr ⟨hgap, ih hs⟩

theorem Settled.of_append_space (h : Settled gap (x ++ ' ' :: y)) : Settled [' '] y := by
  induction x generalizing gap with
  | nil => exact ((settled_blank (by decide)).mp h).of_after_space narrow_space
  | cons c x ih =>
    rcases settled_cons.mp h with ⟨-, hrest⟩ | ⟨-, -, hrest⟩
    · exact ih hrest
    · exact ih hrest

private theorem settled_without (x : List Char) (h : Settled [' '] s) :
    Settled [' '] (Text.without (x ++ [' ']) s) := by
  by_cases hx : x ++ [' '] <+: s
  · obtain ⟨r, rfl⟩ := hx
    rw [Text.without_eq_of_append]
    rw [List.append_assoc, List.singleton_append] at h
    exact h.of_append_space
  · rwa [Text.without_of_not_isPrefix hx]

private theorem settled_dropName (name : List Char) (h : Settled [' '] s) :
    Settled [' '] (dropName name s) := by
  have his := settled_without (name ++ [' ', 'i', 's']) h
  have hare := settled_without (name ++ [' ', 'a', 'r', 'e']) his
  have hbare := settled_without name hare
  simpa [dropName] using hbare

private theorem settled_visible_append (hx : ∀ c ∈ x, isBlank c = false) (hne : x ≠ [])
    (hgap : Narrow gap) (hs : Settled [] s) : Settled gap (x ++ s) := by
  induction x generalizing gap with
  | nil => exact absurd rfl hne
  | cons c x ih =>
    obtain ⟨hc, hx⟩ := List.forall_mem_cons.mp hx
    refine (settled_visible hc).mpr ⟨hgap, ?_⟩
    by_cases hend : x = []
    · simpa [hend] using hs
    · exact ih hx hend (.inl rfl)

private theorem settled_capitalize (h : Settled [' '] s) : Settled [' '] (capitalize s) := by
  obtain ⟨c, t, rfl, hc, ht⟩ := @Settled.after_space [] _ h
  refine settled_visible_append (fun d hd => ?_) (Text.upper_ne_nil c) narrow_space ht
  by_contra hblank
  rw [Text.isBlank_of_mem_upper hd (by simpa using hblank)] at hc
  cases hc

theorem long_eq_nil_or_settled (name raw : List Char) :
    long name raw = [] ∨ Settled [' '] (long name raw) := by
  rcases clean_eq_nil_or_settled raw with hempty | hsettled
  · have hnil : dropName name [] = [] := List.suffix_nil.mp (dropName_isSuffix name [])
    have hunmarked : unmarked raw = [] := by
      rw [unmarked, hempty]
      exact Text.remove_nil
    exact .inl (by rw [long, hunmarked, hnil, Text.capitalize_nil])
  · exact .inr (settled_capitalize (settled_dropName name (settled_unmark hsettled)))

/-- A long description is as cleaning would leave it: there is no white space at its ends, and
between two visible characters stands nothing, a space or an empty line. -/
theorem long_settled (name raw : List Char) :
    clean (long name raw) = long name raw ∧ trim (long name raw) = long name raw ∧
      ∀ x a gap b y, long name raw = x ++ a :: (gap ++ b :: y) → isBlank a = false →
        isBlank b = false → Blank gap → gap = [] ∨ gap = [' '] ∨ gap = ['\n', '\n'] := by
  have hsettled := long_eq_nil_or_settled name raw
  have hclean := clean_eq_self_iff.mpr hsettled
  have htrim := trim_clean (long name raw)
  rw [hclean] at htrim
  refine ⟨hclean, htrim, fun x a gap b y hlong ha hb hgap => ?_⟩
  rw [hlong] at hsettled
  rcases hsettled with hempty | hsettled
  · simp at hempty
  · exact hsettled.narrow ha hb hgap

end SchemaDocs.Comment
