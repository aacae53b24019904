import Mathlib
import SchemaDocs.Proofs.Agreement
import SchemaDocs.Proofs.Pruning

/-!
# Pruning a pruned list

Entries are dropped by full name, so in the pruned list a used name leads to the entry it led to
before, and every other name leads nowhere. Of two entries with one full name, both stay although
the walk has followed only the one that the name finds; the references of the other, hidden one
decide whether the pruned list can be pruned again. Main statement: `prune_again_iff`.
-/

namespace SchemaDocs

open Doc (Package TypeDoc)

variable {ps qs : List Package} {used : NameSet} {name : String}

/-- The same entry in the restricted package. -/
def Target.restrict (used : NameSet) (t : Target) : Target :=
  { t with package := t.package.restrict used }

namespace Scope

def restrict (used : NameSet) (scope : Scope) : Scope :=
  scope.map fun p => (p.1.restrict used, p.2)

variable {scope : Scope}

private theorem ofPackages_restrict (used : NameSet) (ps : List Package) :
    ofPackages (ps.map (·.restrict used)) = (ofPackages ps).restrict used := by
  rw [ofPackages, ofPackages, restrict, List.map_mergeSort, List.zipIdx_map]
  · rfl
  · intro a _ b _
    rfl

theorem get?_restrict (p : Package) (key : String) :
    (p.restrict used).types.get? key =
      if used.contains (Name.qualify p.id key) = true then p.types.get? key else none := by
  rw [Package.restrict, KeyMap.get?_filter]
  cases p.types.get? key <;> simp [Option.filter]

private theorem lookIn?_restrict (p : Package × Nat) :
    lookIn? name (p.1.restrict used, p.2) =
      if used.contains name = true then (lookIn? name p).map (·.restrict used) else none := by
  simp only [lookIn?]
  change (Name.strip? p.1.id name).bind _ = _
  cases hs : Name.strip? p.1.id name with
  | none => simp
  | some key =>
    have hname : Name.qualify p.1.id key = name := Name.strip?_eq_some_iff.mp hs
    rw [Option.bind_some, get?_restrict, hname]
    split
    · cases hg : p.1.types.get? key <;> simp [hg, Target.restrict]
    · rfl

private theorem find?_restrict :
    (scope.restrict used).find? name =
      if used.contains name = true then (scope.find? name).map (·.restrict used) else none := by
  rw [find?, restrict, List.findSome?_map]
  have hlook : lookIn? name ∘ (fun p : Package × Nat => (p.1.restrict used, p.2)) = fun p =>
      if used.contains name = true then (lookIn? name p).map (·.restrict used) else none := by
    funext p
    exact lookIn?_restrict p
  rw [hlook]
  split
  · rw [find?, List.map_findSome?]
    rfl
  · exact List.findSome?_eq_none_iff.mpr fun p _ => rfl

private theorem resolve_restrict_of_mem (hu : used.contains name = true) :
    (scope.restrict used).resolve name = (scope.resolve name).map (·.restrict used) := by
  rw [resolve, resolve, find?_restrict, if_pos hu]
  cases scope.find? name with
  | none => rfl
  | some t =>
    cases hd : t.type.isDeclaration <;> simp [Target.restrict, Except.map, hd]

private theorem resolve_restrict_of_not_mem (hu : ¬ used.contains name = true) :
    (scope.restrict used).resolve name = .error (.unresolved name) := by
  rw [resolve, find?_restrict, if_neg hu]

theorem resolve_pruned (h : prune ps = .ok (qs, used)) (hu : used.contains name = true) :
    ∃ t, (ofPackages ps).resolve name = .ok t ∧
      (ofPackages qs).resolve name = .ok (t.restrict used) := by
  obtain ⟨-, hreach, rfl⟩ := prune_eq_ok_iff.mp h
  obtain ⟨t, ht⟩ := exists_resolve_of_reachable hreach hu
  refine ⟨t, ht, ?_⟩
  rw [ofPackages_restrict, resolve_restrict_of_mem hu, ht]
  rfl

private theorem resolve_pruned_of_not_mem (h : prune ps = .ok (qs, used))
    (hu : ¬ used.contains name = true) :
    (ofPackages qs).resolve name = .error (.unresolved name) := by
  obtain ⟨-, -, rfl⟩ := prune_eq_ok_iff.mp h
  rw [ofPackages_restrict, resolve_restrict_of_not_mem hu]

end Scope

/-- The references of a pruned list resolve when they are used names. -/
theorem resolveAll_pruned_iff (h : prune ps = .ok (qs, used)) :
    resolveAll qs = .ok () ↔ ∀ q ∈ qs, ∀ r ∈ q.refs, used.contains r = true := by
  rw [resolveAll_eq_ok_iff]
  refine forall₂_congr fun q _ => forall₂_congr fun r _ => ?_
  constructor
  · intro hr
    by_contra hu
    obtain ⟨t, ht⟩ := hr
    rw [Scope.resolve_pruned_of_not_mem h hu] at ht
    cases ht
  · intro hu
    obtain ⟨t, -, ht⟩ := Scope.resolve_pruned h hu
    exact ⟨_, ht⟩

theorem agreeOn_restrict (used : NameSet) (ps : List Package) :
    AgreeOn {n | used.contains n = true} ps (ps.map (·.restrict used)) := by
  constructor
  case roots =>
    have hroots : (ps.map (·.restrict used)).flatMap (·.roots) = ps.flatMap (·.roots) := by
      rw [List.flatMap_map]
      rfl
    simp [hroots]
  case types =>
    intro n hn
    rw [Scope.ofPackages_restrict, Scope.resolve_restrict_of_mem hn]
    cases (Scope.ofPackages ps).resolve n with
    | error e => rfl
    | ok t => rfl

private theorem Doc.Package.restrict_restrict (p : Package) :
    (p.restrict used).restrict used = p.restrict used := by
  simp only [Package.restrict, Package.mk.injEq, true_and]
  apply KeyMap.ext
  simp [List.filter_filter]

private theorem prune_pruned (h : prune ps = .ok (qs, used)) (hall : resolveAll qs = .ok ()) :
    prune qs = .ok (qs, used) := by
  obtain ⟨-, hused, rfl⟩ := prune_eq_ok_iff.mp h
  obtain ⟨used', hused'⟩ := exists_reachable_of_resolveAll hall
  obtain rfl : used' = used := (agreeOn_restrict used ps).reachable_eq hused hused'
  refine prune_eq_ok_iff.mpr ⟨hall, hused', ?_⟩
  rw [List.map_map]
  exact List.map_congr_left fun p _ => p.restrict_restrict.symm

/-- An entry that its full name does not lead to: the name finds one of another package. -/
def Hidden (ps : List Package) (i : Nat) (p : Package) (key : String) : Prop :=
  ∃ t, (Scope.ofPackages ps).resolve (Name.qualify p.id key) = .ok t ∧ t.position ≠ i

/-- An entry with a used name that is not hidden has been walked through. -/
theorem refs_used_of_not_hidden {i : Nat} {p : Package} {key : String} {type : TypeDoc}
    (h : prune ps = .ok (qs, used)) (hp : ps[i]? = some p) (htype : p.types.get? key = some type)
    (hu : used.contains (Name.qualify p.id key) = true) (hh : ¬ Hidden ps i p key) :
    ∀ r ∈ type.refs, used.contains r = true := by
  obtain ⟨-, hreach, -⟩ := prune_eq_ok_iff.mp h
  obtain ⟨t, ht⟩ := exists_resolve_of_reachable hreach hu
  have hpos : t.position = i := by
    by_contra hne
    exact hh ⟨t, ht, hne⟩
  obtain ⟨hmem, hfound, hname⟩ := Scope.mem_of_find? (Scope.resolve_eq_ok_iff.mp ht).1
  have hpkg : t.package = p := by
    have hat := Scope.mem_ofPackages.mp hmem
    rw [hpos, hp] at hat
    exact (Option.some.inj hat).symm
  have hkey : t.key = key := by
    have hstrip := Name.strip?_eq_some_iff.mpr hname
    rw [hpkg, Name.strip?_qualify] at hstrip
    exact (Option.some.inj hstrip).symm
  have htt : t.type = type := by
    rw [hpkg, hkey, htype] at hfound
    exact (Option.some.inj hfound).symm
  intro r hr
  exact (closed_reachable hreach).step _ hu t ht r (htt ▸ hr)

theorem resolveAll_pruned_iff_hidden (h : prune ps = .ok (qs, used)) :
    resolveAll qs = .ok () ↔
      ∀ i p, ps[i]? = some p → ∀ e ∈ p.types.entries,
        used.contains (Name.qualify p.id e.1) = true → Hidden ps i p e.1 →
          ∀ r ∈ e.2.refs, used.contains r = true := by
  obtain ⟨-, hreach, hqs⟩ := prune_eq_ok_iff.mp h
  rw [resolveAll_pruned_iff h, hqs]
  constructor
  · intro hall i p hp e he hu _ r hr
    have hmem := List.mem_map_of_mem (f := (·.restrict used)) (List.mem_of_getElem? hp)
    have hkept : (p.restrict used).types.get? e.1 = some e.2 := by
      rw [Scope.get?_restrict, if_pos hu]
      exact KeyMap.get?_eq_some_iff.mpr he
    exact hall _ hmem r (Package.mem_refs_of_entry hkept hr)
  · intro hcond q hq r hr
    obtain ⟨p, hp, rfl⟩ := List.mem_map.mp hq
    rcases Package.mem_refs_iff.mp hr with ⟨key, type, hget, hr⟩ | ⟨e, he, hr⟩
    · rw [Scope.get?_restrict] at hget
      split at hget
      · rename_i hu
        obtain ⟨i, hi⟩ := List.getElem?_of_mem hp
        by_cases hh : Hidden ps i p key
        · exact hcond i p hi (key, type) (KeyMap.get?_eq_some_iff.mp hget) hu hh r hr
        · exact refs_used_of_not_hidden h hi hget hu hh r hr
      · cases hget
    · exact (closed_reachable hreach).roots p hp e he r hr

private theorem resolveAll_pruned_eq_error {e : ResolutionError} (h : prune ps = .ok (qs, used))
    (he : resolveAll qs = .error e) : ∃ r, ¬ used.contains r = true ∧ e = .unresolved r := by
  obtain ⟨q, -, r, -, hres⟩ := exists_of_resolveAll_eq_error he
  have hu : ¬ used.contains r = true := by
    intro hu
    obtain ⟨t, -, ht⟩ := Scope.resolve_pruned h hu
    rw [hres] at ht
    cases ht
  rw [Scope.resolve_pruned_of_not_mem h hu] at hres
  cases hres
  exact ⟨r, hu, rfl⟩

/-- A pruned list passes the check of its references, and pruning leaves it as it is with the same
used names, exactly when no hidden entry that stays refers to a dropped type. Otherwise the check
and the second pruning report such a reference. -/
theorem prune_again_iff (h : prune ps = .ok (qs, used)) :
    ((resolveAll qs = .ok () ∧ prune qs = .ok (qs, used)) ↔
      ∀ i p, ps[i]? = some p → ∀ e ∈ p.types.entries,
        used.contains (Name.qualify p.id e.1) = true → Hidden ps i p e.1 →
          ∀ r ∈ e.2.refs, used.contains r = true) ∧
    (¬ resolveAll qs = .ok () → ∃ r, ¬ used.contains r = true ∧
      resolveAll qs = .error (.unresolved r) ∧ prune qs = .error (.unresolved r)) := by
  constructor
  · rw [← resolveAll_pruned_iff_hidden h]
    exact ⟨fun hagain => hagain.1, fun hall => ⟨hall, prune_pruned h hall⟩⟩
  · intro hnot
    cases hall : resolveAll qs with
    | ok _ => exact absurd hall hnot
    | error e =>
      obtain ⟨r, hu, rfl⟩ := resolveAll_pruned_eq_error h hall
      exact ⟨r, hu, rfl, prune_eq_error_iff.mpr hall⟩

/-- A package whose entry `Foo` has the full name `pkg.a.Foo`. -/
def hidingPackage : Package :=
  { name := "a", id := "pkg.a", description := "",
    services := [⟨"S", "", [.requesting (.ref "pkg.a.Foo")]⟩],
    types := KeyMap.ofList [("Foo", .message "Foo" "" [])] }

/-- A package whose entry `a.Foo` has that full name too, and a field of the given type. -/
def hiddenPackage (target : String) : Package :=
  { name := "pkg", id := "pkg", description := "", services := [],
    types := KeyMap.ofList
      [("a.Foo", .message "Foo" "" [.mk "field" "" (.ref target)]), ("Bar", .message "Bar" "" [])] }

def hiddenNames : NameSet := NameSet.add KeyMap.empty "pkg.a.Foo"

private theorem prune_hiddenPackage {target : String}
    (h : resolveAll [hiddenPackage target, hidingPackage] = .ok ()) :
    prune [hiddenPackage target, hidingPackage] =
      .ok ([hiddenPackage target, hidingPackage].map (·.restrict hiddenNames), hiddenNames) := by
  refine prune_eq_ok_iff.mpr ⟨h, ?_, rfl⟩
  have hroots : [hiddenPackage target, hidingPackage].flatMap (·.roots) =
      [.ref "pkg.a.Foo", .basic "Empty" ""] := rfl
  have hfoo : (Scope.ofPackages [hiddenPackage target, hidingPackage]).resolve "pkg.a.Foo" =
      .ok ⟨1, hidingPackage, "Foo", .message "Foo" "" []⟩ := by
    cbv
  rw [reachable, hroots, Scope.walk_ref hfoo, if_neg (by decide), Scope.walk, List.map_nil,
    List.nil_append, Scope.walk, Scope.walk]
  rfl

/-- A hidden entry that refers to a used type stays in a list that pruning leaves as it is. -/
theorem prune_again_hidden_used :
    let ps := [hiddenPackage "pkg.a.Foo", hidingPackage]
    let qs := ps.map (·.restrict hiddenNames)
    Hidden ps 0 (hiddenPackage "pkg.a.Foo") "a.Foo" ∧ prune ps = .ok (qs, hiddenNames) ∧
      resolveAll qs = .ok () ∧ prune qs = .ok (qs, hiddenNames) := by
  have hprune := @prune_hiddenPackage "pkg.a.Foo" (by cbv)
  have hused : ∀ r ∈ [hiddenPackage "pkg.a.Foo", hidingPackage].flatMap (·.refs),
      hiddenNames.contains r = true := by
    decide
  refine ⟨⟨⟨1, hidingPackage, "Foo", .message "Foo" "" []⟩, by cbv, by decide⟩, hprune,
    (prune_again_iff hprune).1.mpr ?_⟩
  intro i p hp e he _ _ r hr
  refine hused r (List.mem_flatMap.mpr ⟨p, List.mem_of_getElem? hp, ?_⟩)
  exact Package.mem_refs_of_entry (KeyMap.get?_eq_some_iff.mpr he) hr

/-- A hidden entry that refers to a dropped type makes the pruned list fail. -/
theorem prune_again_hidden_dropped :
    let ps := [hiddenPackage "pkg.Bar", hidingPackage]
    let qs := ps.map (·.restrict hiddenNames)
    prune ps = .ok (qs, hiddenNames) ∧ resolveAll qs = .error (.unresolved "pkg.Bar") ∧
      prune qs = .error (.unresolved "pkg.Bar") := by
  have hall : resolveAll ([hiddenPackage "pkg.Bar", hidingPackage].map (·.restrict hiddenNames)) =
      .error (.unresolved "pkg.Bar") := by
    cbv
  exact ⟨prune_hiddenPackage (by cbv), hall, prune_eq_error_iff.mpr hall⟩

end SchemaDocs
