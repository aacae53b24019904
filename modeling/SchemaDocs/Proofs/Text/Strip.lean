import SchemaDocs.Text.Strip

/-!
# Parts taken off and out of a text

What is left when a part is removed from a text wherever it stands. The removal splits with the
text, unless an occurrence of the part stands across the split, and what is left splits no other
way. So the part stands in what is left exactly if a stretch of the text turns into it. Main
statement: `isInfix_of_remove_iff`.
-/

namespace SchemaDocs.Text

variable {p c : Char} {ps s start r x y z a b : List Char}

/-! ## Starts -/

theorem without_eq_of_append : without start (start ++ r) = r := by
  rw [without, strip?_append]
  rfl

theorem strip?_eq_none (h : ¬ start <+: s) : strip? start s = none := by
  cases hstrip : strip? start s with
  | none => rfl
  | some r => exact absurd ⟨r, (strip?_eq_some_iff.mp hstrip).symm⟩ h

theorem without_of_not_isPrefix (h : ¬ start <+: s) : without start s = s := by
  rw [without, strip?_eq_none h]
  rfl

theorem without_isSuffix (start s : List Char) : without start s <:+ s := by
  by_cases h : start <+: s
  · obtain ⟨r, rfl⟩ := h
    rw [without_eq_of_append]
    exact List.suffix_append start r
  · simp [without_of_not_isPrefix h]

/-! ## Removal -/

@[simp] theorem remove_nil : remove p ps [] = [] := by rw [remove]

theorem remove_of_strip? (h : strip? (p :: ps) s = some r) : remove p ps s = remove p ps r := by
  cases s with
  | nil => simp [strip?] at h
  | cons c s =>
    rw [remove]
    split
    · rename_i rest hrest
      cases hrest.symm.trans h
      rfl
    · rename_i hnone
      cases hnone.symm.trans h

theorem remove_part_append (s : List Char) : remove p ps (p :: ps ++ s) = remove p ps s :=
  remove_of_strip? (strip?_append _ s)

theorem remove_cons (h : ¬ p :: ps <+: c :: s) : remove p ps (c :: s) = c :: remove p ps s := by
  rw [remove]
  split
  · rename_i rest hrest
    exact absurd ⟨rest, (strip?_eq_some_iff.mp hrest).symm⟩ h
  · rfl

/-- Either the part stands at the start of a text, or the first character stays. -/
@[elab_as_elim]
theorem remove_induction (p : Char) (ps : List Char) {motive : List Char → Prop}
    (nil : motive [])
    (part : ∀ s, motive s → motive (p :: ps ++ s))
    (other : ∀ c s, ¬ p :: ps <+: c :: s → motive s → motive (c :: s)) (s : List Char) :
    motive s := by
  fun_induction remove p ps s with
  | case1 => exact nil
  | case2 c cs rest hrest _ ih => exact strip?_eq_some_iff.mp hrest ▸ part rest ih
  | case3 c cs hnone ih =>
    refine other c cs (fun h => ?_) ih
    obtain ⟨rest, hrest⟩ := h
    cases hnone.symm.trans (strip?_eq_some_iff.mpr hrest.symm)

theorem remove_of_length_lt (h : s.length < (p :: ps).length) : remove p ps s = s := by
  induction s with
  | nil => exact remove_nil
  | cons c s ih =>
    have hnot : ¬ p :: ps <+: c :: s := fun hp => Nat.not_lt.mpr hp.length_le h
    rw [remove_cons hnot, ih (Nat.lt_of_succ_lt h)]

/-- A removal splits where no occurrence of the part stands across. -/
theorem remove_append
    (h : ∀ u v, u ≠ [] → v ≠ [] → u <:+ x → v <+: y → u ++ v ≠ p :: ps) :
    remove p ps (x ++ y) = remove p ps x ++ remove p ps y := by
  induction x using remove_induction p ps with
  | nil => simp
  | part x ih =>
    rw [List.append_assoc, remove_part_append, remove_part_append]
    exact ih fun u v hu hv hux => h u v hu hv (hux.trans (List.suffix_append _ x))
  | other c x hc ih =>
    have hnot : ¬ p :: ps <+: c :: (x ++ y) := by
      rintro ⟨rest, hrest⟩
      rw [← List.cons_append] at hrest
      rcases List.append_eq_append_iff.mp hrest with ⟨v, hv, -⟩ | ⟨v, hv, hy⟩
      · exact hc ⟨v, hv.symm⟩
      · cases v with
        | nil => exact hc ⟨[], by rw [hv, List.append_nil, List.append_nil]⟩
        | cons d v =>
          exact h (c :: x) (d :: v) nofun nofun List.suffix_rfl ⟨rest, hy.symm⟩ hv.symm
    rw [List.cons_append, remove_cons hnot, remove_cons hc, List.cons_append]
    exact congrArg _ (ih fun u v hu hv hux => h u v hu hv (hux.trans (List.suffix_cons c x)))

theorem remove_append_of_head (hp : p ∉ ps) (hy : y.head? = some p) :
    remove p ps (x ++ y) = remove p ps x ++ remove p ps y := by
  refine remove_append fun u v hu hv _ hvy heq => ?_
  obtain ⟨d, u, rfl⟩ := List.exists_cons_of_ne_nil hu
  obtain ⟨e, v, rfl⟩ := List.exists_cons_of_ne_nil hv
  obtain ⟨rest, rfl⟩ := hvy
  cases hy
  rw [List.cons_append, List.cons.injEq] at heq
  exact hp (heq.2 ▸ List.mem_append_right u List.mem_cons_self)

theorem exists_append_of_remove (h : remove p ps s = a ++ b) :
    ∃ x y, s = x ++ y ∧ remove p ps x = a ∧ remove p ps y = b := by
  induction s using remove_induction p ps generalizing a with
  | nil =>
    obtain ⟨rfl, rfl⟩ := List.append_eq_nil_iff.mp (remove_nil ▸ h).symm
    exact ⟨[], [], rfl, remove_nil, remove_nil⟩
  | part s ih =>
    rw [remove_part_append] at h
    obtain ⟨x, y, rfl, hx, hy⟩ := ih h
    exact ⟨p :: ps ++ x, y, (List.append_assoc ..).symm, by rw [remove_part_append, hx], hy⟩
  | other c s hc ih =>
    cases a with
    | nil => exact ⟨[], c :: s, rfl, remove_nil, h⟩
    | cons d a =>
      rw [remove_cons hc, List.cons_append, List.cons.injEq] at h
      obtain ⟨rfl, hrest⟩ := h
      obtain ⟨x, y, rfl, hx, hy⟩ := ih hrest
      have hnot : ¬ p :: ps <+: c :: x := fun hp => hc (hp.trans (List.prefix_append (c :: x) y))
      exact ⟨c :: x, y, rfl, by rw [remove_cons hnot, hx], hy⟩

theorem head?_of_remove {w : List Char} (h : remove p ps s = p :: w) : s.head? = some p := by
  induction s using remove_induction p ps with
  | nil => simp at h
  | part s => rfl
  | other c s hc =>
    rw [remove_cons hc, List.cons.injEq] at h
    simp [h.1]

/-- A removal splits behind a stretch that turns into the part. -/
theorem remove_append_of_remove (hp : p ∉ ps) (hy : remove p ps y = p :: ps) :
    remove p ps (y ++ z) = remove p ps y ++ remove p ps z := by
  refine remove_append fun u v hu hv huy _ heq => ?_
  obtain ⟨w, rfl⟩ := huy
  obtain ⟨d, u, rfl⟩ := List.exists_cons_of_ne_nil hu
  rw [List.cons_append, List.cons.injEq] at heq
  obtain ⟨rfl, rfl⟩ := heq
  have hshort : remove d (u ++ v) (d :: u) = d :: u := by
    refine remove_of_length_lt ?_
    have hpos : 0 < v.length := List.length_pos_iff.mpr hv
    simp only [List.length_cons, List.length_append]
    omega
  rw [remove_append_of_head hp rfl, hshort] at hy
  cases hw : remove d (u ++ v) w with
  | nil => exact hv (by simpa [hw] using hy)
  | cons e w' =>
    rw [hw, List.cons_append, List.cons.injEq] at hy
    exact hp (hy.2 ▸ List.mem_append_right w' List.mem_cons_self)

theorem remove_append_append (hp : p ∉ ps) (hy : remove p ps y = p :: ps) :
    remove p ps (x ++ y ++ z) = remove p ps x ++ (p :: ps) ++ remove p ps z := by
  have hhead : (y ++ z).head? = some p := by simp [head?_of_remove hy]
  rw [List.append_assoc, remove_append_of_head hp hhead, remove_append_of_remove hp hy, hy,
    List.append_assoc]

/-- After a start of what is left of a text the part stands exactly if a stretch of the text turns
into it that the start does not reach. -/
theorem isInfix_of_remove_iff (hp : p ∉ ps) (h : remove p ps s = start ++ r) :
    p :: ps <:+: r ↔ ∃ x y z, s = x ++ y ++ z ∧ remove p ps y = p :: ps ∧
      start <+: remove p ps x := by
  constructor
  · rintro ⟨a, b, rfl⟩
    rw [List.append_assoc, ← List.append_assoc] at h
    obtain ⟨x, yz, rfl, hx, hyz⟩ := exists_append_of_remove h
    obtain ⟨y, z, rfl, hy, -⟩ := exists_append_of_remove hyz
    exact ⟨x, y, z, (List.append_assoc ..).symm, hy, hx ▸ List.prefix_append start a⟩
  · rintro ⟨x, y, z, rfl, hy, a, ha⟩
    rw [remove_append_append hp hy, ← ha, List.append_assoc, List.append_assoc] at h
    exact ⟨a, remove p ps z, (List.append_assoc ..).trans (List.append_cancel_left h)⟩

end SchemaDocs.Text
