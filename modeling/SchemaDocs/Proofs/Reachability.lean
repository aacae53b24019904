import Mathlib.Order.Bounds.Defs
import SchemaDocs.Proofs.Doc
import SchemaDocs.Proofs.Resolution
import SchemaDocs.Reachability

/-!
# The least set of reachable names

A walk is a run over the references still to follow: each step drops a recorded name, or records
one and puts the references of its declaration in its place. Main statement: `reachable_isLeast`.
-/

namespace SchemaDocs

open Doc (Package TypeDoc)

namespace NameSet

@[simp] theorem contains_empty (name : String) :
    KeyMap.contains (KeyMap.empty : NameSet) name = false := rfl

theorem ext_contains {used used' : NameSet}
    (h : ∀ name, used.contains name = true ↔ used'.contains name = true) : used = used' := by
  apply KeyMap.ext_get?
  intro name
  have hb := Bool.eq_iff_iff.mpr (h name)
  simp only [KeyMap.contains] at hb
  cases h₁ : used.get? name <;> cases h₂ : used'.get? name <;> simp [h₁, h₂] at hb ⊢

theorem mem_add {used : NameSet} {name n : String} :
    (used.add name).contains n = true ↔ n = name ∨ used.contains n = true := by
  rw [contains_add, Bool.or_eq_true, beq_iff_eq]

end NameSet

namespace Scope

variable {scope : Scope} {used final : NameSet}

theorem walk_ref {name : String} {t : Target} {rest : List TypeDoc}
    (h : scope.resolve name = .ok t) :
    scope.walk used (.ref name :: rest) =
      if used.contains name = true then scope.walk used rest
      else scope.walk (used.add name) (t.type :: rest) := by
  have hname := (fullName_of_resolve h).1
  subst hname
  rw [walk]
  split
  · rename_i e he
    rw [h] at he
    cases he
  · rename_i u hu
    rw [h] at hu
    cases hu
    split <;> rfl

/-- Whatever the steps of a walk keep holds where the walk ends: with nothing left to follow, or
before a name that does not resolve. -/
theorem walk_ends (Inv : NameSet → List String → Prop) (used : NameSet) (types : List TypeDoc)
    (drop : ∀ used name rest, used.contains name = true → Inv used (name :: rest) → Inv used rest)
    (enter : ∀ used name rest t, scope.resolve name = .ok t → Inv used (name :: rest) →
      Inv (used.add name) (t.type.refs ++ rest))
    (h : Inv used (types.flatMap (·.refs))) :
    match scope.walk used types with
    | .ok final => Inv final []
    | .error e => ∃ used' name rest, Inv used' (name :: rest) ∧ scope.resolve name = .error e := by
  fun_induction Scope.walk scope used types with
  | case1 used => exact h
  | case2 used name description values rest ih =>
    exact ih (by simpa only [List.flatMap_cons, TypeDoc.refs, List.nil_append] using h)
  | case3 used name sample rest ih =>
    exact ih (by simpa only [List.flatMap_cons, TypeDoc.refs, List.nil_append] using h)
  | case4 used item rest ih =>
    exact ih (by simpa only [List.flatMap_cons, TypeDoc.refs] using h)
  | case5 used key value rest ih =>
    exact ih (by simpa only [List.flatMap_cons, TypeDoc.refs, List.append_assoc] using h)
  | case6 used name description fields rest ih =>
    rw [List.map_attach_eq_pmap] at ih
    simp only [List.pmap_eq_map] at ih
    apply ih
    simpa only [List.flatMap_cons, List.flatMap_append, List.flatMap_map, TypeDoc.refs,
      TypeDoc.fieldRefs_eq] using h
  | case7 used name rest e hr =>
    exact ⟨used, name, _, h, hr⟩
  | case8 used name rest t hr hu ih =>
    rw [(fullName_of_resolve hr).1] at hu
    exact ih (drop used name _ hu h)
  | case9 used name rest t hr hu _ ih =>
    rw [(fullName_of_resolve hr).1] at ih ⊢
    exact ih (enter used name _ t hr h)

/-- A set of names that no reference leads out of. -/
def Stable (scope : Scope) (U : Set String) : Prop :=
  ∀ n ∈ U, ∀ t, scope.resolve n = .ok t → ∀ r ∈ t.type.refs, r ∈ U

/-- A walk never leaves a stable set that it starts in; and where it fails, the name that does not
resolve lies in that set. -/
theorem walk_within {U : Set String} (hU : scope.Stable U) (used : NameSet) (types : List TypeDoc)
    (hused : ∀ n, used.contains n = true → n ∈ U) (htypes : ∀ t ∈ types, ∀ n ∈ t.refs, n ∈ U) :
    match scope.walk used types with
    | .ok final => ∀ n, final.contains n = true → n ∈ U
    | .error e => ∃ n ∈ U, scope.resolve n = .error e := by
  let Inv (used : NameSet) (rest : List String) : Prop :=
    (∀ n, used.contains n = true → n ∈ U) ∧ ∀ n ∈ rest, n ∈ U
  have hdrop : ∀ used name rest, used.contains name = true → Inv used (name :: rest) →
      Inv used rest := by
    intro used name rest _ hi
    exact ⟨hi.1, fun n hn => hi.2 n (List.mem_cons_of_mem _ hn)⟩
  have henter : ∀ used name rest t, scope.resolve name = .ok t → Inv used (name :: rest) →
      Inv (used.add name) (t.type.refs ++ rest) := by
    intro used name rest t ht hi
    have hname : name ∈ U := hi.2 name List.mem_cons_self
    constructor
    · intro n hn
      rcases NameSet.mem_add.mp hn with rfl | hn
      · exact hname
      · exact hi.1 n hn
    · intro n hn
      rcases List.mem_append.mp hn with hn | hn
      · exact hU name hname t ht n hn
      · exact hi.2 n (List.mem_cons_of_mem _ hn)
  have hstart : Inv used (types.flatMap (·.refs)) := by
    refine ⟨hused, fun n hn => ?_⟩
    obtain ⟨t, ht, hn⟩ := List.mem_flatMap.mp hn
    exact htypes t ht n hn
  have hends := walk_ends Inv used types hdrop henter hstart
  cases hw : scope.walk used types with
  | ok final =>
    rw [hw] at hends
    exact hends.1
  | error e =>
    rw [hw] at hends
    obtain ⟨_, name, _, hi, hres⟩ := hends
    exact ⟨name, hi.2 name List.mem_cons_self, hres⟩

/-- Nothing met so far is forgotten: every root and every reference of a recorded declaration is
recorded itself, or still to follow. -/
structure Explored (scope : Scope) (roots : List String) (used : NameSet) (rest : List String) :
    Prop where
  roots : ∀ r ∈ roots, used.contains r = true ∨ r ∈ rest
  entered : ∀ n, used.contains n = true → ∃ t, scope.resolve n = .ok t ∧
    ∀ r ∈ t.type.refs, used.contains r = true ∨ r ∈ rest

namespace Explored

variable {roots rest : List String} {name : String}

private theorem drop (hi : scope.Explored roots used (name :: rest))
    (hu : used.contains name = true) :
    scope.Explored roots used rest := by
  have hkeep : ∀ r, used.contains r = true ∨ r ∈ name :: rest →
      used.contains r = true ∨ r ∈ rest := by
    intro r hr
    rcases hr with hr | hr
    · exact Or.inl hr
    · rcases List.mem_cons.mp hr with rfl | hr
      · exact Or.inl hu
      · exact Or.inr hr
  refine ⟨fun r hr => hkeep r (hi.roots r hr), fun n hn => ?_⟩
  obtain ⟨t, ht, hrefs⟩ := hi.entered n hn
  exact ⟨t, ht, fun r hr => hkeep r (hrefs r hr)⟩

private theorem enter {t : Target} (hi : scope.Explored roots used (name :: rest))
    (ht : scope.resolve name = .ok t) :
    scope.Explored roots (used.add name) (t.type.refs ++ rest) := by
  have hkeep : ∀ r, used.contains r = true ∨ r ∈ name :: rest →
      (used.add name).contains r = true ∨ r ∈ t.type.refs ++ rest := by
    intro r hr
    rcases hr with hr | hr
    · exact Or.inl (NameSet.mem_add.mpr (Or.inr hr))
    · rcases List.mem_cons.mp hr with rfl | hr
      · exact Or.inl (NameSet.mem_add.mpr (Or.inl rfl))
      · exact Or.inr (List.mem_append_right _ hr)
  refine ⟨fun r hr => hkeep r (hi.roots r hr), fun n hn => ?_⟩
  rcases NameSet.mem_add.mp hn with rfl | hn
  · exact ⟨t, ht, fun r hr => Or.inr (List.mem_append_left _ hr)⟩
  · obtain ⟨u, hu, hrefs⟩ := hi.entered n hn
    exact ⟨u, hu, fun r hr => hkeep r (hrefs r hr)⟩

end Explored

theorem explored_walk {types : List TypeDoc} (h : scope.walk KeyMap.empty types = .ok final) :
    scope.Explored (types.flatMap (·.refs)) final [] := by
  have hstart : scope.Explored (types.flatMap (·.refs)) KeyMap.empty (types.flatMap (·.refs)) :=
    ⟨fun r hr => Or.inr hr, fun n hn => by simp at hn⟩
  have hends := walk_ends (scope.Explored (types.flatMap (·.refs))) KeyMap.empty types
    (fun _ _ _ hu hi => hi.drop hu) (fun _ _ _ _ ht hi => hi.enter ht) hstart
  rw [h] at hends
  exact hends

end Scope

/-- A set with the names that endpoints refer to, and with every name that the declaration of one
of its members refers to. -/
structure Closed (ps : List Package) (U : Set String) : Prop where
  roots : ∀ p ∈ ps, ∀ e ∈ p.endpoints, ∀ n ∈ e.request.refs ++ e.response.refs, n ∈ U
  step : ∀ n ∈ U, ∀ t, (Scope.ofPackages ps).resolve n = .ok t → ∀ r ∈ t.type.refs, r ∈ U

theorem closed_reachable {ps : List Package} {used : NameSet} (h : reachable ps = .ok used) :
    Closed ps {n | used.contains n = true} := by
  have hex := Scope.explored_walk h
  constructor
  · intro p hp e he n hn
    have hroot := hex.roots n (mem_refs_roots.mpr ⟨p, hp, e, he, hn⟩)
    exact hroot.resolve_right List.not_mem_nil
  · intro n hn t ht r hr
    obtain ⟨u, hu, hrefs⟩ := hex.entered n hn
    have htu : u = t := by
      rw [hu] at ht
      cases ht
      rfl
    exact (hrefs r (htu ▸ hr)).resolve_right List.not_mem_nil

theorem exists_resolve_of_reachable {ps : List Package} {used : NameSet} {n : String}
    (h : reachable ps = .ok used) (hn : used.contains n = true) :
    ∃ t, (Scope.ofPackages ps).resolve n = .ok t := by
  obtain ⟨t, ht, -⟩ := (Scope.explored_walk h).entered n hn
  exact ⟨t, ht⟩

/-- The names recorded from all endpoints are the least set that is closed under references. -/
theorem reachable_isLeast {ps : List Package} {used : NameSet} (h : reachable ps = .ok used) :
    IsLeast {U | Closed ps U} {n | used.contains n = true} := by
  refine ⟨closed_reachable h, ?_⟩
  intro U hmem n hn
  have hU : Closed ps U := hmem
  have hroots : ∀ t ∈ ps.flatMap (·.roots), ∀ n ∈ t.refs, n ∈ U := by
    intro t ht n hn
    obtain ⟨p, hp, e, he, hn⟩ := mem_refs_roots.mp (List.mem_flatMap.mpr ⟨t, ht, hn⟩)
    exact hU.roots p hp e he n hn
  have hwithin := Scope.walk_within hU.step KeyMap.empty (ps.flatMap (·.roots))
    (fun n hn => by simp at hn) hroots
  rw [reachable] at h
  rw [h] at hwithin
  exact hwithin n hn

end SchemaDocs
