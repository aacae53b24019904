import SchemaDocs.Proofs.Comment.Sentence
import SchemaDocs.Proofs.Comment.Settled

/-!
# Short descriptions as lines

A short description is one line: all white space in it are spaces. But it is not always clean.
The period goes from the end of the first sentence after all cleaning, and a space before that
period stays behind. In no other way does a short description need cleaning. Main statement:
`short_clean_iff`.
-/

namespace SchemaDocs.Comment

open Text (Blank isBlank)

variable {c : Char} {gap s t x y : List Char}

/-! ## Starts of settled texts -/

private theorem Settled.of_append_visible (h : Settled gap (x ++ c :: y)) (hc : isBlank c = false) :
    Settled gap (x ++ [c]) := by
  induction x generalizing gap with
  | nil => exact (settled_visible hc).mpr ⟨((settled_visible hc).mp h).1, rfl⟩
  | cons d x ih =>
    rcases settled_cons.mp h with ⟨hd, hrest⟩ | ⟨hd, hgap, hrest⟩
    · exact (settled_blank hd).mpr (ih hrest)
    · exact (settled_visible hd).mpr ⟨hgap, ih hrest⟩

private theorem Settled.not_space_space (h : Settled gap (x ++ ' ' :: c :: y)) :
    isBlank c = false := by
  obtain ⟨d, t, heq, hd, -⟩ := @Settled.after_space [] _ h.of_append_space
  exact (List.cons.inj heq).1 ▸ hd

private theorem Settled.eq_space_or_break (h : Settled (gap ++ [c]) s) (hgap : '\n' ∉ gap) :
    c = ' ' ∨ c = '\n' ∧ gap = [] := by
  obtain ⟨more, hmore⟩ := h.exists_narrow
  rw [List.append_assoc, List.singleton_append] at hmore
  cases gap with
  | nil =>
    rcases hmore with hmore | hmore | hmore
    · cases hmore
    · exact .inl (List.cons.inj hmore).1
    · exact .inr ⟨(List.cons.inj hmore).1, rfl⟩
  | cons d gap =>
    rcases hmore with hmore | hmore | hmore
    · cases hmore
    · simp at hmore
    · have hd : d = '\n' := (List.cons.inj hmore).1
      exact absurd (hd ▸ List.mem_cons_self) hgap

private theorem Settled.after_break (h : Settled ['\n'] (c :: s)) : c = '\n' := by
  rcases settled_cons.mp h with ⟨-, hs⟩ | ⟨-, hgap, -⟩
  · obtain ⟨more, hmore⟩ := hs.exists_narrow
    rcases hmore with hmore | hmore | hmore
    · simp at hmore
    · simp at hmore
    · simp only [List.cons_append, List.nil_append, List.cons.injEq] at hmore
      exact hmore.2.1
  · rcases hgap with hgap | hgap | hgap <;> simp at hgap

/-! ## Lines -/

/-- A text whose only white space are spaces. -/
def OnlySpaces (s : List Char) : Prop := ∀ c ∈ s, isBlank c = true → c = ' '

private theorem onlySpaces_nil : OnlySpaces [] := List.forall_mem_nil _

private theorem onlySpaces_cons :
    OnlySpaces (c :: s) ↔ (isBlank c = true → c = ' ') ∧ OnlySpaces s :=
  List.forall_mem_cons

/-- The first paragraph of a settled text is settled, and a line. -/
theorem settled_paragraph (h : Settled gap s) (hgap : '\n' ∉ gap) :
    Settled gap (paragraph s) ∧ OnlySpaces (paragraph s) := by
  fun_induction paragraph s generalizing gap with
  | case1 => exact ⟨h, onlySpaces_nil⟩
  | case2 c =>
    refine ⟨h, onlySpaces_cons.mpr ⟨fun hc => ?_, onlySpaces_nil⟩⟩
    have hend : gap ++ [c] = [] := (settled_blank hc).mp h
    simp at hend
  | case3 c d cs hbreaks =>
    obtain ⟨rfl, rfl⟩ := hbreaks
    have hrest := (settled_blank (by decide)).mp h
    rcases hrest.eq_space_or_break hgap with hspace | ⟨-, hnil⟩
    · exact absurd hspace (by decide)
    · exact ⟨hnil, onlySpaces_nil⟩
  | case4 c d cs hbreaks ih =>
    rcases settled_cons.mp h with ⟨hc, hrest⟩ | ⟨hc, hnarrow, hrest⟩
    · rcases hrest.eq_space_or_break hgap with rfl | ⟨rfl, rfl⟩
      · obtain ⟨hsettled, hspaces⟩ := ih hrest (by simpa using hgap)
        exact ⟨(settled_blank hc).mpr hsettled, onlySpaces_cons.mpr ⟨fun _ => rfl, hspaces⟩⟩
      · exact absurd ⟨rfl, hrest.after_break⟩ hbreaks
    · obtain ⟨hsettled, hspaces⟩ := ih hrest List.not_mem_nil
      refine ⟨(settled_visible hc).mpr ⟨hnarrow, hsettled⟩, onlySpaces_cons.mpr ⟨?_, hspaces⟩⟩
      simp [hc]

private theorem SentenceLength.take_cases {p : List Char} {n : Nat} (h : SentenceLength p n) :
    p.take n = p ∨ ∃ t rest, p = t ++ '.' :: rest ∧ p.take n = t ++ ['.'] := by
  rcases h with ⟨hends, -⟩ | ⟨rfl, -⟩
  · obtain ⟨j, rfl, hperiod⟩ := hends.period
    obtain ⟨hj, hget⟩ := List.getElem?_eq_some_iff.mp hperiod
    refine .inr ⟨p.take j, p.drop (j + 1), ?_, ?_⟩
    · rw [← hget, List.getElem_cons_drop, List.take_append_drop]
    · rw [List.take_add_one, hperiod]
      rfl
  · exact .inl List.take_length

private theorem settled_sentence (h : Settled [' '] s) :
    Settled [' '] (sentence s) ∧ OnlySpaces (sentence s) := by
  obtain ⟨hsettled, hspaces⟩ := settled_paragraph h (by decide)
  obtain ⟨n, hn, htake⟩ := sentence_eq_take s
  rw [htake]
  refine ⟨?_, fun c hc => hspaces c (List.mem_of_mem_take hc)⟩
  rcases hn.take_cases with hall | ⟨t, rest, hp, hcut⟩
  · rwa [hall]
  · rw [hcut]
    exact (hp ▸ hsettled).of_append_visible (by decide)

/-! ## Short descriptions -/

private theorem clean_append_blank (hx : Blank x) : clean (s ++ x) = clean s := by
  obtain ⟨glyphs, after, hafter, rfl⟩ := exists_glyphs s
  have hall : Blank (after ++ x) := by
    intro c hc
    exact (List.mem_append.mp hc).elim (hafter c) (hx c)
  rw [List.append_assoc, clean_glyphs glyphs hall, clean_glyphs glyphs hafter]

private theorem clean_of_append (h : Settled [' '] (s ++ y))
    (hlast : ∀ c ∈ s.getLast?, isBlank c = false) :
    clean s = s := by
  rcases List.eq_nil_or_concat s with rfl | ⟨t, c, rfl⟩
  · rfl
  · rw [List.concat_eq_append] at h hlast ⊢
    rw [List.append_assoc, List.singleton_append] at h
    exact clean_eq_self_iff.mpr (.inr (h.of_append_visible (hlast c (by simp))))

/-- A settled line without its last character is clean, unless it ends with a space now. Then it is
clean without that. -/
theorem clean_of_cut (h : Settled [' '] (s ++ [c])) (hspaces : OnlySpaces (s ++ [c])) :
    ¬ [' '] <:+ s ∧ clean s = s ∨ ∃ t, s = t ++ [' '] ∧ clean s = t := by
  rcases List.eq_nil_or_concat s with rfl | ⟨t, d, rfl⟩
  · exact .inl ⟨by decide, rfl⟩
  · rw [List.concat_eq_append] at h hspaces ⊢
    by_cases hd : isBlank d = true
    · obtain rfl : d = ' ' := hspaces d (by simp) hd
      refine .inr ⟨t, rfl, ?_⟩
      rw [clean_append_blank (by simpa [Blank] using hd)]
      rw [List.append_assoc] at h
      refine clean_of_append h fun e he => ?_
      by_contra he'
      have hblank : isBlank e = true := by simpa using he'
      obtain rfl : e = ' ' := hspaces e (by simp [List.mem_of_mem_getLast? he]) hblank
      rw [← List.dropLast_append_getLast? ' ' he, List.append_assoc] at h
      exact he' h.not_space_space
    · have hd : isBlank d = false := by simpa using hd
      refine .inl ⟨fun hsuffix => ?_, clean_of_append h (by simpa using hd)⟩
      obtain rfl := List.singleton_suffix_append_singleton_iff.mp hsuffix
      exact absurd hd (by decide)

private theorem clean_iff_of_period (h : Settled [' '] s) (hspaces : OnlySpaces s)
    (ht : s = t ++ ['.'] ∨ s = t ∧ ¬ ['.'] <:+ t) :
    (clean t = t ↔ ¬ [' ', '.'] <:+ s) ∧ ([' ', '.'] <:+ s → t = clean t ++ [' ']) := by
  rcases ht with rfl | ⟨rfl, hnone⟩
  · have hsuffix : [' ', '.'] <:+ t ++ ['.'] ↔ [' '] <:+ t :=
      @List.suffix_append_self_iff _ [' '] t ['.']
    rw [hsuffix]
    rcases clean_of_cut h hspaces with ⟨hnot, hclean⟩ | ⟨u, rfl, hclean⟩
    · exact ⟨iff_of_true hclean hnot, fun hs => absurd hs hnot⟩
    · have hs : [' '] <:+ u ++ [' '] := List.suffix_append u [' ']
      rw [hclean]
      exact ⟨iff_of_false (by simp) (not_not.mpr hs), fun _ => rfl⟩
  · have hnot : ¬ [' ', '.'] <:+ s := fun hs => hnone ((List.suffix_cons ' ' ['.']).trans hs)
    exact ⟨iff_of_true (clean_eq_self_iff.mpr (.inr h)) hnot, fun hs => absurd hs hnot⟩

/-- A short description is a line. It is clean too, unless the first sentence of the long
description has a space before the period at its end: that space stays then, and nothing else has to
go. -/
theorem short_clean_iff (name raw : List Char) :
    (∀ c ∈ short name raw, isBlank c = true → c = ' ') ∧
      (clean (short name raw) = short name raw ↔ ¬ [' ', '.'] <:+ sentence (long name raw)) ∧
      ([' ', '.'] <:+ sentence (long name raw) →
        short name raw = clean (short name raw) ++ [' ']) := by
  rcases long_eq_nil_or_settled name raw with hnil | hsettled
  · rw [short, hnil]
    exact ⟨onlySpaces_nil, by decide, by decide⟩
  · obtain ⟨hsentence, hspaces⟩ := settled_sentence hsettled
    refine ⟨fun c hc => hspaces c ((dropPeriod_isPrefix _).subset hc), ?_⟩
    exact clean_iff_of_period hsentence hspaces (dropPeriod_cases _)

/-- The space before the period of a sentence is not cleaned away. -/
theorem short_unclean_item :
    short "item".toList "item is sold . More.".toList = "Sold ".toList ∧
      clean (short "item".toList "item is sold . More.".toList) ≠
        short "item".toList "item is sold . More.".toList := by
  decide +kernel

end SchemaDocs.Comment
