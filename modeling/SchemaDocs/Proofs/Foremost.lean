import SchemaDocs.Proofs.PackageOrder

/-!
# The entry that a full name looks at

A name is looked for by stripping identifiers from it, but what it finds is told by the full names
of entries alone. Of all entries with the name it is the one whose package has the longest
identifier, and of packages with that identifier the first in the list; and that entry decides, even
where another one with the name would be a declaration. Main statement: `resolve_foremost`.
-/

namespace SchemaDocs

open Doc (Package TypeDoc)

variable {ps : List Package} {name : String} {t u : Target}

/-- An entry of a list of packages, in the package at a position, with the given full name. -/
structure Target.Named (ps : List Package) (name : String) (t : Target) : Prop where
  package : ps[t.position]? = some t.package
  entry : t.package.types.get? t.key = some t.type
  fullName : t.fullName = name

/-- Of the entries with a full name the one whose package has the longest identifier, in bytes, and
is the first with that identifier. -/
structure Foremost (ps : List Package) (name : String) (t : Target) : Prop where
  named : t.Named ps name
  longest : ∀ u : Target, u.Named ps name → u.package.id.utf8ByteSize ≤ t.package.id.utf8ByteSize
  first : ∀ u : Target, u.Named ps name → u.package.id = t.package.id → t.position ≤ u.position

private theorem Target.Named.eq_of_position (ht : t.Named ps name) (hu : u.Named ps name)
    (hposition : t.position = u.position) : t = u := by
  have hpackage : t.package = u.package := by
    have hat := ht.package
    rw [hposition, hu.package] at hat
    exact (Option.some.inj hat).symm
  have hkey : t.key = u.key := by
    have hsame := ht.fullName.trans hu.fullName.symm
    rw [Target.fullName, Target.fullName, hpackage] at hsame
    exact (Name.qualify_inj_of_size hsame rfl).2
  have htype : t.type = u.type := by
    have hfound := ht.entry
    rw [hpackage, hkey, hu.entry] at hfound
    exact (Option.some.inj hfound).symm
  obtain ⟨position, package, key, type⟩ := t
  obtain ⟨position', package', key', type'⟩ := u
  simp only at hposition hpackage hkey htype
  subst hposition hpackage hkey htype
  rfl

namespace Foremost

/-- No other entry is the foremost: the longest identifiers with a name are equal. -/
theorem unique (ht : Foremost ps name t) (hu : Foremost ps name u) : t = u := by
  have hsize : t.package.id.utf8ByteSize = u.package.id.utf8ByteSize :=
    Nat.le_antisymm (hu.longest t ht.named) (ht.longest u hu.named)
  have hid : t.package.id = u.package.id :=
    (Name.qualify_inj_of_size (ht.named.fullName.trans hu.named.fullName.symm) hsize).1
  have hposition : t.position = u.position :=
    Nat.le_antisymm (ht.first u hu.named hid.symm) (hu.first t ht.named hid)
  exact ht.named.eq_of_position hu.named hposition

end Foremost

namespace Scope

private theorem pairwise_zipIdx (ps : List Package) : ps.zipIdx.Pairwise fun a b => a.2 < b.2 := by
  have hpositions : (ps.zipIdx.map (·.2)).Pairwise (· < ·) := by
    rw [List.zipIdx_map_snd]
    exact List.pairwise_lt_range'
  exact List.pairwise_map.mp hpositions

private theorem pairwise_position (ps : List Package) : (ofPackages ps).Pairwise fun a b =>
    a.1.id.utf8ByteSize = b.1.id.utf8ByteSize → a.2 < b.2 := by
  rw [List.pairwise_iff_forall_sublist]
  intro a b hab hsize
  let ofSize (p : Package × Nat) : Bool := p.1.id.utf8ByteSize = b.1.id.utf8ByteSize
  have hkept : (ofPackages ps).filter ofSize = ps.zipIdx.filter ofSize :=
    filter_mergeSort (by simp; omega) (by simp; omega) (by simp [ofSize]; omega) _
  have hpair : [a, b].Sublist (ps.zipIdx.filter ofSize) := by
    have hsub := hab.filter ofSize
    rw [hkept] at hsub
    simpa [ofSize, hsize] using hsub
  exact List.pairwise_iff_forall_sublist.mp (pairwise_zipIdx ps)
    (hpair.trans List.filter_sublist)

theorem foremost_of_find? (h : (ofPackages ps).find? name = some t) : Foremost ps name t := by
  obtain ⟨hmem, hentry, hname⟩ := mem_of_find? h
  refine ⟨⟨mem_ofPackages.mp hmem, hentry, hname⟩, fun u hu => ?_, fun u hu hid => ?_⟩
  · exact size_le_of_find? h (List.mem_of_getElem? hu.package) hu.entry hu.fullName
  · have hlook : lookIn? name (u.package, u.position) = some u :=
      lookIn?_eq_some_iff.mpr ⟨rfl, hu.entry, hu.fullName⟩
    rcases rel_of_find? (pairwise_position ps) h (mem_ofPackages.mpr hu.package) hlook with
      hsame | hlater
    · exact Nat.le_of_eq (congrArg Prod.snd hsame).symm
    · exact Nat.le_of_lt (hlater (by rw [hid]))

/-- A name looks at an entry exactly when that is the foremost one with the name. -/
theorem find?_eq_some_iff : (ofPackages ps).find? name = some t ↔ Foremost ps name t := by
  constructor
  · exact foremost_of_find?
  · intro ht
    have hpackage := mem_ofPackages.mpr ht.named.package
    obtain ⟨u, hu⟩ := exists_find? hpackage ht.named.entry ht.named.fullName
    rw [hu, (foremost_of_find? hu).unique ht]

private theorem exists_find?_iff : (∃ t, (ofPackages ps).find? name = some t) ↔
    ∃ p ∈ ps, ∃ key ∈ p.types.keys, Name.qualify p.id key = name := by
  constructor
  · intro h
    obtain ⟨t, ht⟩ := h
    obtain ⟨hmem, hentry, hname⟩ := mem_of_find? ht
    exact ⟨t.package, List.mem_of_getElem? (mem_ofPackages.mp hmem), t.key,
      KeyMap.mem_keys_of_get? hentry, hname⟩
  · intro h
    obtain ⟨p, hp, key, hkey, hname⟩ := h
    obtain ⟨i, hi⟩ := List.getElem?_of_mem hp
    obtain ⟨type, htype⟩ := KeyMap.mem_keys_iff.mp hkey
    exact exists_find? (mem_ofPackages.mpr hi) htype hname

private theorem resolve_of_foremost (h : Foremost ps name t) : (ofPackages ps).resolve name =
    if t.type.isDeclaration = true then .ok t
    else .error (.notADeclaration name t.type.form) := by
  rw [resolve, find?_eq_some_iff.mpr h]

private theorem resolve_eq_unresolved_iff {scope : Scope} :
    scope.resolve name = .error (.unresolved name) ↔ scope.find? name = none := by
  rw [resolve]
  cases scope.find? name with
  | none => simp
  | some t => cases hd : t.type.isDeclaration <;> simp [hd]

end Scope

/-- What a name resolves to, by the full names of entries alone. A name that no entry has is
unresolved. Otherwise the foremost entry with the name is looked at: the name resolves to it if it
is a declaration, and is refused with its form if it is none, whatever the other entries are. -/
theorem resolve_foremost (ps : List Package) (name : String) :
    ((Scope.ofPackages ps).resolve name = .error (.unresolved name) ↔
      ∀ p ∈ ps, ∀ key ∈ p.types.keys, Name.qualify p.id key ≠ name) ∧
    ((∃ p ∈ ps, ∃ key ∈ p.types.keys, Name.qualify p.id key = name) →
      ∃! t, Foremost ps name t) ∧
    (∀ t, Foremost ps name t → (Scope.ofPackages ps).find? name = some t ∧
      (Scope.ofPackages ps).resolve name =
        if t.type.isDeclaration = true then .ok t
        else .error (.notADeclaration name t.type.form)) ∧
    ∀ t, (Scope.ofPackages ps).resolve name = .ok t → t.fullName = name := by
  refine ⟨?_, fun h => ?_, fun t ht => ?_, fun t ht => ?_⟩
  · rw [Scope.resolve_eq_unresolved_iff, Option.eq_none_iff_forall_ne_some, ← not_exists,
      Scope.exists_find?_iff]
    simp only [not_exists, not_and, ne_eq]
  · obtain ⟨t, ht⟩ := Scope.exists_find?_iff.mpr h
    have hforemost := Scope.foremost_of_find? ht
    exact ⟨t, hforemost, fun u hu => hu.unique hforemost⟩
  · exact ⟨Scope.find?_eq_some_iff.mpr ht, Scope.resolve_of_foremost ht⟩
  · exact (Scope.fullName_of_resolve ht).1

/-- Three packages with an entry of one full name: a message in one with a shorter identifier, and
in two of one identifier an alias and a message. -/
def aliasPackages : List Package :=
  [{ name := "pkg", id := "pkg", description := "", services := [],
     types := KeyMap.ofList [("a.Foo", .message "Foo" "" [])] },
    { name := "a", id := "pkg.a", description := "", services := [],
      types := KeyMap.ofList [("Foo", .basic "String" "")] },
    { name := "a", id := "pkg.a", description := "", services := [],
      types := KeyMap.ofList [("Foo", .message "Foo" "" []), ("Bar", .message "Bar" "" [])] }]

/-- The alias is looked at, and refused although both other entries are declarations. -/
theorem resolve_foremost_aliasPackages :
    (∃! t, Foremost aliasPackages "pkg.a.Foo" t) ∧
      Foremost aliasPackages "pkg.a.Foo" ⟨1, aliasPackages[1], "Foo", .basic "String" ""⟩ ∧
      (Scope.ofPackages aliasPackages).resolve "pkg.a.Foo" =
        .error (.notADeclaration "pkg.a.Foo" "basic") ∧
      (Scope.ofPackages aliasPackages).resolve "pkg.Foo" = .error (.unresolved "pkg.Foo") := by
  obtain ⟨-, hone, hresolve, -⟩ := resolve_foremost aliasPackages "pkg.a.Foo"
  have hforemost : Foremost aliasPackages "pkg.a.Foo"
      ⟨1, aliasPackages[1], "Foo", .basic "String" ""⟩ := Scope.foremost_of_find? (by cbv)
  refine ⟨hone ?_, hforemost, (hresolve _ hforemost).2, ?_⟩
  · exact ⟨aliasPackages[0], List.mem_cons_self, "a.Foo", List.mem_cons_self, rfl⟩
  · exact (resolve_foremost aliasPackages "pkg.Foo").1.mpr (by decide)

end SchemaDocs
