import SchemaDocs.Text.Blank
import SchemaDocs.Text.Uppercase

/-!
# Where upper-case characters come from

The tables of letter case read backwards, from a character to those whose upper case has it. So
there is white space in the upper case of white space only. Main statements: `toNat_mem_sources` and
`isBlank_of_mem_upper`.
-/

namespace SchemaDocs.Text

variable {c d : Char}

/-- The code points of all characters whose upper case may have the character with code point `n` in
it: those that the tables map to it, and itself. -/
def sources (n : Nat) : List Nat :=
  (CaseTable.expansions.filter (n ∈ ·.2)).map (·.1) ++
    ((CaseTable.shifts.filter fun x => x.1.has (n - x.2 : Int).toNat).map
      fun x => (n - x.2 : Int).toNat) ++ [n]

private theorem toNat_of_ofNat {n : Nat} (h : Char.ofNat n = d) (hd : d ≠ '\x00') :
    n = d.toNat := by
  by_cases hn : n.isValidChar
  · have hchar : Char.ofNat n = Char.ofNatAux n hn := dif_pos hn
    rw [← h, hchar]
    rfl
  · have hchar : Char.ofNat n = '\x00' := dif_neg hn
    exact absurd (h.symm.trans hchar) hd

theorem toNat_mem_sources (h : d ∈ upper c) (hd : d ≠ '\x00') :
    c.toNat ∈ sources d.toNat := by
  simp only [sources, List.mem_append, List.mem_map, List.mem_filter, decide_eq_true_eq]
  unfold upper at h
  split at h
  · rename_i ns hns
    obtain ⟨n, hn, hchar⟩ := List.mem_map.mp h
    obtain ⟨before, after, hentry, -⟩ := List.lookup_eq_some_iff.mp hns
    refine .inl (.inl ⟨(c.toNat, ns), ⟨?_, toNat_of_ofNat hchar hd ▸ hn⟩, rfl⟩)
    simp [hentry]
  · split at h
    · rename_i run shift hfind
      have hsum := toNat_of_ofNat (List.mem_singleton.mp h).symm hd
      have hback : (d.toNat - shift : Int).toNat = c.toNat := by
        have hpos : d.toNat ≠ 0 := fun hzero => hd (Char.toNat_inj.mp hzero)
        omega
      refine .inl (.inr ⟨(run, shift), ⟨List.mem_of_find?_eq_some hfind, ?_⟩, hback⟩)
      have hhas := List.find?_some hfind
      rwa [hback]
    · rw [List.mem_singleton.mp h]
      exact .inr List.mem_cons_self

theorem eq_of_mem_upper (hsources : sources d.toNat = [d.toNat]) (h : d ∈ upper c)
    (hd : d ≠ '\x00') : c = d := by
  have hc := toNat_mem_sources h hd
  rw [hsources] at hc
  exact Char.toNat_inj.mp (List.mem_singleton.mp hc)

/-! ## White space -/

/-- The code points of the white space. -/
def blanks : List Nat :=
  List.range' 9 5 ++ List.range' 0x2000 11 ++
    [0x20, 0x85, 0xA0, 0x1680, 0x2028, 0x2029, 0x202F, 0x205F, 0x3000]

private theorem toNat_mem_blanks (h : isBlank c = true) : c.toNat ∈ blanks := by
  simp only [isBlank, Bool.or_eq_true, Bool.and_eq_true, decide_eq_true_eq, beq_iff_eq] at h
  simp only [blanks, List.mem_append, List.mem_range'_1, List.mem_cons, List.not_mem_nil]
  omega

private theorem sources_of_mem_blanks : ∀ n ∈ blanks, sources n = [n] := by decide +kernel

theorem isBlank_of_mem_upper (h : d ∈ upper c) (hd : isBlank d = true) : isBlank c = true := by
  have hne : d ≠ '\x00' := by
    rintro rfl
    exact absurd hd (by decide)
  exact eq_of_mem_upper (sources_of_mem_blanks _ (toNat_mem_blanks hd)) h hne ▸ hd

theorem upper_ne_nil (c : Char) : upper c ≠ [] := by
  have hentries : ∀ e ∈ CaseTable.expansions, e.2 ≠ [] := by decide +kernel
  unfold upper
  split
  · rename_i ns hns
    obtain ⟨before, after, hentry, -⟩ := List.lookup_eq_some_iff.mp hns
    have hns := hentries (c.toNat, ns) (by simp [hentry])
    exact fun h => hns (List.map_eq_nil_iff.mp h)
  · split <;> simp

end SchemaDocs.Text
