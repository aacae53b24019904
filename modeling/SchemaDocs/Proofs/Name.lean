import SchemaDocs.Name

/-!
# What full names tell

A name without a dot can be read off a full name: it is what follows the last dot, and the package
is what goes before. Any name can be read off where the package is known, or just the size of its
name. Main statement: `qualify_parts`.
-/

namespace SchemaDocs.Name

private theorem append_dot_inj {l m p q : List Char} (hl : '.' ∉ l) (hm : '.' ∉ m)
    (h : l ++ '.' :: p = m ++ '.' :: q) : l = m ∧ p = q := by
  induction l generalizing m with
  | nil =>
    cases m with
    | nil => simpa using h
    | cons c m =>
      have hc : '.' = c := (List.cons.inj h).1
      exact absurd (hc ▸ List.mem_cons_self) hm
  | cons b l ih =>
    cases m with
    | nil =>
      have hb : b = '.' := (List.cons.inj h).1
      exact absurd (hb ▸ List.mem_cons_self) hl
    | cons c m =>
      obtain ⟨hbc, htail⟩ := List.cons.inj h
      obtain ⟨hlm, hpq⟩ := ih (fun hd => hl (List.mem_cons_of_mem _ hd))
        (fun hd => hm (List.mem_cons_of_mem _ hd)) htail
      exact ⟨by rw [hbc, hlm], hpq⟩

private theorem toList_qualify {package name : String} (h : package ≠ "") :
    (qualify package name).toList = package.toList ++ '.' :: name.toList := by
  simp [qualify, h]

private theorem dot_mem_qualify {package name : String} (h : package ≠ "") :
    '.' ∈ (qualify package name).toList := by
  rw [toList_qualify h]
  exact List.mem_append_right _ List.mem_cons_self

private theorem qualify_empty (name : String) : qualify "" name = name := by
  rw [qualify, if_pos rfl]

theorem qualify_inj {package package' name name' : String} (hn : '.' ∉ name.toList)
    (hn' : '.' ∉ name'.toList) (h : qualify package name = qualify package' name') :
    package = package' ∧ name = name' := by
  by_cases hp : package = ""
  · subst hp
    rw [qualify_empty] at h
    by_cases hp' : package' = ""
    · subst hp'
      exact ⟨rfl, h.trans (qualify_empty name')⟩
    · exact absurd (h ▸ dot_mem_qualify hp') hn
  · by_cases hp' : package' = ""
    · subst hp'
      rw [qualify_empty] at h
      exact absurd (h ▸ dot_mem_qualify hp) hn'
    · have hl := congrArg (List.reverse ∘ String.toList) h
      simp only [Function.comp_apply, toList_qualify hp, toList_qualify hp', List.reverse_append,
        List.reverse_cons, List.append_assoc, List.singleton_append] at hl
      obtain ⟨hname, hpackage⟩ := append_dot_inj (by simpa using hn) (by simpa using hn') hl
      exact ⟨String.toList_inj.mp (List.reverse_inj.mp hpackage),
        String.toList_inj.mp (List.reverse_inj.mp hname)⟩

/-- Taking a package off a full name undoes putting it on, whatever dots there are in either; and
full names of names without dots are equal only if both parts are, be it in the package without a
name or in another one. -/
theorem qualify_parts :
    (∀ package name rest : String, strip? package name = some rest ↔ qualify package rest = name) ∧
      ∀ package package' name name' : String, '.' ∉ name.toList → '.' ∉ name'.toList →
        (qualify package name = qualify package' name' ↔ package = package' ∧ name = name') := by
  constructor
  · intro package name rest
    exact strip?_eq_some_iff
  · intro package package' name name' hn hn'
    constructor
    · intro h
      exact qualify_inj hn hn' h
    · rintro ⟨rfl, rfl⟩
      rfl

/-- In no package and in one with dots. -/
theorem qualify_parts_order :
    '.' ∉ "Order".toList ∧ strip? "acme.v1" "acme.v1.Order" = some "Order" ∧
      qualify "" "Order" ≠ qualify "acme.v1" "Order" := by
  have hname : '.' ∉ "Order".toList := by decide
  refine ⟨hname, (qualify_parts.1 _ _ _).mpr (by decide), fun h => ?_⟩
  have hparts := (qualify_parts.2 "" "acme.v1" "Order" "Order" hname hname).mp h
  exact absurd hparts.1 (by decide)

/-- A name with a dot may stand in two packages under one full name. -/
example : qualify "acme" "v1.Order" = qualify "acme.v1" "Order" := by decide

private theorem eq_of_isPrefix_of_size {p q : String} (h : p.toList <+: q.toList)
    (hsize : p.utf8ByteSize = q.utf8ByteSize) : p = q := by
  obtain ⟨rest, hrest⟩ := h
  have hq : q = p ++ String.ofList rest := by
    rw [← String.toList_inj, ← hrest, String.toList_append, String.toList_ofList]
  have hnone : (String.ofList rest).utf8ByteSize = 0 := by
    rw [hq, String.utf8ByteSize_append] at hsize
    omega
  rw [hq, String.utf8ByteSize_eq_zero_iff.mp hnone, String.append_empty]

theorem qualify_inj_of_size {package package' name name' : String}
    (h : qualify package name = qualify package' name')
    (hsize : package.utf8ByteSize = package'.utf8ByteSize) : package = package' ∧ name = name' := by
  have hpackage : package = package' := by
    by_cases hp : package = ""
    · subst hp
      exact (String.utf8ByteSize_eq_zero_iff.mp hsize.symm).symm
    · have hp' : package' ≠ "" := by
        rintro rfl
        exact hp (String.utf8ByteSize_eq_zero_iff.mp hsize)
      have hl := congrArg String.toList h
      rw [toList_qualify hp, toList_qualify hp'] at hl
      rcases List.prefix_or_prefix_of_prefix (List.prefix_append package.toList _)
        (hl ▸ List.prefix_append package'.toList _) with hle | hle
      · exact eq_of_isPrefix_of_size hle hsize
      · exact (eq_of_isPrefix_of_size hle hsize.symm).symm
  subst hpackage
  refine ⟨rfl, ?_⟩
  simpa using congrArg (strip? package) h

end SchemaDocs.Name
