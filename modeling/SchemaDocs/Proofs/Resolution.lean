import SchemaDocs.Proofs.KeyMap
import SchemaDocs.Resolution

/-!
# What a name leads to

A name finds an entry exactly when some package holds one with that full name. Which of several it
finds depends on their packages' identifiers; where only one has the name, it is that one.
-/

namespace SchemaDocs

theorem filter_mergeSort {α : Type} {le : α → α → Bool} {p : α → Bool}
    (htrans : ∀ a b c, le a b = true → le b c = true → le a c = true)
    (htotal : ∀ a b, (le a b || le b a) = true)
    (htie : ∀ a b, p a = true → p b = true → le a b = true) (l : List α) :
    (l.mergeSort le).filter p = l.filter p := by
  have htied : (l.filter p).Pairwise fun a b => le a b = true := by
    refine List.pairwise_of_forall_mem_list fun a ha b hb => ?_
    exact htie a b (List.mem_filter.mp ha).2 (List.mem_filter.mp hb).2
  have hkept := (List.sublist_mergeSort htrans htotal htied List.filter_sublist).filter p
  rw [List.filter_filter] at hkept
  simp only [Bool.and_self] at hkept
  exact (hkept.eq_of_length ((List.mergeSort_perm l le).filter p).length_eq.symm).symm

namespace Scope

open Doc (Package TypeDoc)

variable {scope : Scope} {name : String} {t : Target}

theorem mem_ofPackages {ps : List Package} {p : Package} {i : Nat} :
    (p, i) ∈ ofPackages ps ↔ ps[i]? = some p := by
  rw [ofPackages, List.mem_mergeSort, List.mk_mem_zipIdx_iff_getElem?]

theorem lookIn?_eq_some_iff {p : Package × Nat} :
    lookIn? name p = some t ↔
      p = (t.package, t.position) ∧ t.package.types.get? t.key = some t.type ∧
        t.fullName = name := by
  obtain ⟨q, i⟩ := p
  simp only [lookIn?, Option.bind_eq_bind, Option.bind_eq_some_iff, Name.strip?_eq_some_iff]
  constructor
  · intro h
    obtain ⟨key, hname, type, htype, h⟩ := h
    cases h
    exact ⟨rfl, htype, hname⟩
  · intro h
    obtain ⟨hp, htype, hname⟩ := h
    cases hp
    exact ⟨t.key, hname, t.type, htype, rfl⟩

theorem mem_of_find? (h : scope.find? name = some t) :
    (t.package, t.position) ∈ scope ∧ t.package.types.get? t.key = some t.type ∧
      t.fullName = name := by
  obtain ⟨p, hp, hlook⟩ := List.exists_of_findSome?_eq_some h
  obtain ⟨rfl, htype, hname⟩ := lookIn?_eq_some_iff.mp hlook
  exact ⟨hp, htype, hname⟩

theorem exists_find? {p : Package × Nat} {key : String} {type : TypeDoc} (hp : p ∈ scope)
    (htype : p.1.types.get? key = some type) (hname : Name.qualify p.1.id key = name) :
    ∃ t, scope.find? name = some t := by
  have hlook : lookIn? name p = some ⟨p.2, p.1, key, type⟩ :=
    lookIn?_eq_some_iff.mpr ⟨rfl, htype, hname⟩
  rw [← Option.isSome_iff_exists, find?, List.findSome?_isSome_iff]
  exact ⟨p, hp, by rw [hlook, Option.isSome_some]⟩

/-- What a name finds stands in the first package with the name: in the order of the scope every
other package with it comes later. -/
theorem rel_of_find? {R : Package × Nat → Package × Nat → Prop} (hscope : scope.Pairwise R)
    (h : scope.find? name = some t) {u : Target} {p : Package × Nat} (hp : p ∈ scope)
    (hu : lookIn? name p = some u) :
    p = (t.package, t.position) ∨ R (t.package, t.position) p := by
  obtain ⟨before, q, after, rfl, hfound, hbefore⟩ := List.findSome?_eq_some_iff.mp h
  obtain ⟨rfl, -, -⟩ := lookIn?_eq_some_iff.mp hfound
  rcases List.mem_append.mp hp with hp | hp
  · rw [hbefore p hp] at hu
    cases hu
  · rcases List.mem_cons.mp hp with rfl | hp
    · exact .inl rfl
    · exact .inr ((List.pairwise_cons.mp (List.pairwise_append.mp hscope).2.1).1 p hp)

theorem find?_of_unique (hp : (t.package, t.position) ∈ scope)
    (htype : t.package.types.get? t.key = some t.type) (hname : t.fullName = name)
    (hu : ∀ u : Target, (u.package, u.position) ∈ scope →
      u.package.types.get? u.key = some u.type → u.fullName = name → u = t) :
    scope.find? name = some t := by
  obtain ⟨u, hf⟩ := exists_find? hp htype hname
  obtain ⟨hmem, hutype, huname⟩ := mem_of_find? hf
  rw [hf, hu u hmem hutype huname]

theorem resolve_eq_ok_iff :
    scope.resolve name = .ok t ↔ scope.find? name = some t ∧ t.type.isDeclaration = true := by
  unfold resolve
  split
  · rename_i hf
    simp [hf]
  · rename_i u hf
    rw [hf, Option.some.injEq]
    split
    · rename_i hd
      constructor
      · intro h
        cases h
        exact ⟨rfl, hd⟩
      · intro h
        obtain ⟨rfl, -⟩ := h
        rfl
    · rename_i hd
      constructor
      · intro h
        simp at h
      · intro h
        obtain ⟨rfl, ht⟩ := h
        exact absurd ht hd

theorem exists_resolve_of_type_eq {scope' : Scope}
    (h : (scope.resolve name).map (·.type) = (scope'.resolve name).map (·.type))
    (ht : scope.resolve name = .ok t) : ∃ t', scope'.resolve name = .ok t' ∧ t'.type = t.type := by
  rw [ht] at h
  cases hr : scope'.resolve name with
  | error e =>
    rw [hr] at h
    cases h
  | ok t' =>
    rw [hr] at h
    exact ⟨t', rfl, (Except.ok.inj h).symm⟩

/-- Where two scopes find a name alike, with the same type, it resolves alike. -/
theorem resolve_type_congr {scope' : Scope}
    (h : ∀ t, scope.find? name = some t → ∃ t', scope'.find? name = some t' ∧ t'.type = t.type)
    (h' : ∀ t', scope'.find? name = some t' → ∃ t, scope.find? name = some t ∧ t.type = t'.type) :
    (scope.resolve name).map (·.type) = (scope'.resolve name).map (·.type) := by
  cases ht : scope.find? name with
  | some t =>
    obtain ⟨t', ht', htype⟩ := h t ht
    rw [resolve, resolve, ht, ht']
    dsimp only
    rw [htype]
    split
    · exact congrArg Except.ok htype.symm
    · rfl
  | none =>
    cases ht' : scope'.find? name with
    | none => rw [resolve, resolve, ht, ht']
    | some t' =>
      obtain ⟨t, hfound, -⟩ := h' t' ht'
      rw [ht] at hfound
      cases hfound

theorem failure?_eq_none_iff : scope.failure? name = none ↔ ∃ t, scope.resolve name = .ok t := by
  unfold failure?
  cases h : scope.resolve name <;> simp

theorem failure?_eq_some_iff {e : ResolutionError} :
    scope.failure? name = some e ↔ scope.resolve name = .error e := by
  unfold failure?
  cases h : scope.resolve name <;> simp

end Scope
end SchemaDocs
