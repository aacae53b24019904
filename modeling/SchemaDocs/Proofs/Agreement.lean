import Mathlib.Order.Bounds.Basic
import SchemaDocs.Proofs.Reachability

/-!
# Lists that agree on names

What endpoints reach is settled by where they start and by the types that names lead to. So two
lists of packages that agree on these for the used names of one have the same used names, however
else they differ. Main statement: `AgreeOn.isLeast`.
-/

namespace SchemaDocs

open Doc (Package TypeDoc)

variable {ps ps' ps'' : List Package} {U V : Set String} {used used' : NameSet}

private theorem Closed.inter (hU : Closed ps U) (hV : Closed ps V) : Closed ps (U ∩ V) := by
  constructor
  case roots => exact fun p hp e he n hn => ⟨hU.roots p hp e he n hn, hV.roots p hp e he n hn⟩
  case step =>
    intro n hn t ht r hr
    exact ⟨hU.step n hn.1 t ht r hr, hV.step n hn.2 t ht r hr⟩

/-- Two lists have the same references in requests and responses, and each name of a set leads in
both to the same type, or to none for the same reason. -/
structure AgreeOn (U : Set String) (ps ps' : List Package) : Prop where
  roots : ∀ n, n ∈ (ps.flatMap (·.roots)).flatMap (·.refs) ↔
    n ∈ (ps'.flatMap (·.roots)).flatMap (·.refs)
  types : ∀ n ∈ U, ((Scope.ofPackages ps).resolve n).map (·.type) =
    ((Scope.ofPackages ps').resolve n).map (·.type)

namespace AgreeOn

theorem symm (h : AgreeOn U ps ps') : AgreeOn U ps' ps :=
  ⟨fun n => (h.roots n).symm, fun n hn => (h.types n hn).symm⟩

theorem trans (h : AgreeOn U ps ps') (h' : AgreeOn U ps' ps'') : AgreeOn U ps ps'' :=
  ⟨fun n => (h.roots n).trans (h'.roots n), fun n hn => (h.types n hn).trans (h'.types n hn)⟩

theorem mono (h : AgreeOn U ps ps') (hsub : V ⊆ U) : AgreeOn V ps ps' :=
  ⟨h.roots, fun n hn => h.types n (hsub hn)⟩

theorem exists_resolve (h : AgreeOn U ps ps') {n : String} (hn : n ∈ U) {t : Target}
    (ht : (Scope.ofPackages ps).resolve n = .ok t) :
    ∃ t', (Scope.ofPackages ps').resolve n = .ok t' ∧ t'.type = t.type :=
  Scope.exists_resolve_of_type_eq (h.types n hn) ht

private theorem closed (h : AgreeOn U ps ps') (hU : Closed ps U) : Closed ps' U := by
  constructor
  case roots =>
    intro p hp e he n hn
    have hroot := (h.roots n).mpr (mem_refs_roots.mpr ⟨p, hp, e, he, hn⟩)
    obtain ⟨p, hp, e, he, hn⟩ := mem_refs_roots.mp hroot
    exact hU.roots p hp e he n hn
  case step =>
    intro n hn t' ht' r hr
    obtain ⟨t, ht, htype⟩ := h.symm.exists_resolve hn ht'
    exact hU.step n hn t ht r (htype ▸ hr)

/-- The least closed set of a list is that of every list that agrees with it on the set. -/
theorem isLeast (h : AgreeOn U ps ps') (hU : IsLeast {V | Closed ps V} U) :
    IsLeast {V | Closed ps' V} U := by
  refine ⟨h.closed hU.1, fun V hV => ?_⟩
  have hboth : Closed ps' (V ∩ U) := Closed.inter hV (h.closed hU.1)
  have hback : Closed ps (V ∩ U) := (h.symm.mono Set.inter_subset_right).closed hboth
  exact fun n hn => (hU.2 hback hn).1

theorem reachable_eq (h : AgreeOn {n | used.contains n = true} ps ps')
    (hused : reachable ps = .ok used) (hused' : reachable ps' = .ok used') : used' = used := by
  have hset := (reachable_isLeast hused').unique (h.isLeast (reachable_isLeast hused))
  exact NameSet.ext_contains fun n => Set.ext_iff.mp hset n

end AgreeOn

end SchemaDocs
