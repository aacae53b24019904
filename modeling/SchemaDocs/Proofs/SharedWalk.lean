import SchemaDocs.Proofs.Foremost

/-!
# One walk for all endpoints

All endpoints share one set of recorded names, and a later walk does not enter what an earlier one
has recorded. Nothing is lost by that: the names recorded in the end are those that can be met from
some request or response, and to meet a name takes one of them only. Main statement:
`reachable_separately`.
-/

namespace SchemaDocs

open Doc (Package Endpoint TypeDoc)

variable {ps ps' : List Package} {used used' : NameSet} {n : String}

namespace Scope

variable {scope scope' : Scope} {types types' : List TypeDoc}

/-- The names that a reader of some types meets: those written in the types, and those written in
the declarations that met names lead to. -/
inductive Meets (scope : Scope) (types : List TypeDoc) : String → Prop
  | root {type : TypeDoc} {n : String} (htype : type ∈ types) (hn : n ∈ type.refs) :
      Meets scope types n
  | step {m n : String} {t : Target} (hm : Meets scope types m) (ht : scope.resolve m = .ok t)
      (hn : n ∈ t.type.refs) : Meets scope types n

/-- In two scopes each name leads to the same type, or to none for the same reason. -/
def Alike (scope scope' : Scope) : Prop :=
  ∀ n, (scope.resolve n).map (·.type) = (scope'.resolve n).map (·.type)

private theorem Alike.exists_resolve (h : Alike scope scope') {t : Target}
    (ht : scope.resolve n = .ok t) :
    ∃ t', scope'.resolve n = .ok t' ∧ t'.type = t.type :=
  exists_resolve_of_type_eq (h n) ht

namespace Meets

private theorem mono (h : scope.Meets types n) (halike : Alike scope scope') (hsub : types ⊆ types')
    :
    scope'.Meets types' n := by
  induction h with
  | root htype hn => exact .root (hsub htype) hn
  | step _ ht hn ih =>
    obtain ⟨t', ht', htype⟩ := halike.exists_resolve ht
    exact .step ih ht' (htype ▸ hn)

private theorem exists_mem (h : scope.Meets types n) : ∃ type ∈ types, scope.Meets [type] n := by
  induction h with
  | root htype hn => exact ⟨_, htype, .root List.mem_cons_self hn⟩
  | step _ ht hn ih =>
    obtain ⟨type, htype, hm⟩ := ih
    exact ⟨type, htype, .step hm ht hn⟩

end Meets

private theorem stable_meets (scope : Scope) (types : List TypeDoc) :
    scope.Stable {n | scope.Meets types n} := by
  intro m hm t ht r hr
  exact Meets.step hm ht hr

/-- A walk records the names that are met. -/
theorem contains_walk_iff (h : scope.walk KeyMap.empty types = .ok used) :
    used.contains n = true ↔ scope.Meets types n := by
  have hexplored := explored_walk h
  have hwithin := walk_within (stable_meets scope types) KeyMap.empty types
    (fun n hn => by simp at hn) fun _ htype _ hn => .root htype hn
  rw [h] at hwithin
  refine ⟨hwithin n, fun hn => ?_⟩
  induction hn with
  | root htype hn =>
    have hroot := hexplored.roots _ (List.mem_flatMap.mpr ⟨_, htype, hn⟩)
    exact hroot.resolve_right List.not_mem_nil
  | step _ ht hn ih =>
    obtain ⟨t, ht', hrefs⟩ := hexplored.entered _ ih
    rw [ht] at ht'
    cases ht'
    exact (hrefs _ hn).resolve_right List.not_mem_nil

/-- A walk fails only at a name that is met. -/
theorem exists_walk_iff : (∃ used, scope.walk KeyMap.empty types = .ok used) ↔
    ∀ n, scope.Meets types n → ∃ t, scope.resolve n = .ok t := by
  constructor
  · intro h n hn
    obtain ⟨used, hused⟩ := h
    obtain ⟨t, ht, -⟩ := (explored_walk hused).entered n ((contains_walk_iff hused).mpr hn)
    exact ⟨t, ht⟩
  · intro h
    have hwithin := walk_within (stable_meets scope types) KeyMap.empty types
      (fun n hn => by simp at hn) fun _ htype _ hn => .root htype hn
    cases hw : scope.walk KeyMap.empty types with
    | ok used => exact ⟨used, rfl⟩
    | error e =>
      rw [hw] at hwithin
      obtain ⟨n, hn, he⟩ := hwithin
      obtain ⟨t, ht⟩ := h n hn
      rw [ht] at he
      cases he

end Scope

/-! ## Packages with the same types -/

/-- The same identifiers and types, package by package; the services may differ. -/
def SameTypes (ps ps' : List Package) : Prop :=
  ps'.map (fun p => (p.id, p.types)) = ps.map fun p => (p.id, p.types)

private theorem SameTypes.symm (h : SameTypes ps ps') : SameTypes ps' ps := Eq.symm h

private theorem SameTypes.exists_named (h : SameTypes ps ps') {t : Target} (ht : t.Named ps n) :
    ∃ t' : Target, t'.Named ps' n ∧ t'.position = t.position ∧ t'.package.id = t.package.id ∧
      t'.type = t.type := by
  have hat := congrArg (·[t.position]?) h
  simp only [List.getElem?_map, ht.package, Option.map_some, Option.map_eq_some_iff,
    Prod.mk.injEq] at hat
  obtain ⟨p, hp, hid, htypes⟩ := hat
  refine ⟨⟨t.position, p, t.key, t.type⟩, ⟨hp, ?_, ?_⟩, rfl, hid, rfl⟩
  · exact (congrArg (·.get? t.key) htypes).trans ht.entry
  · rw [Target.fullName, hid]
    exact ht.fullName

private theorem SameTypes.exists_find? (h : SameTypes ps ps') {t : Target}
    (ht : (Scope.ofPackages ps).find? n = some t) :
    ∃ t', (Scope.ofPackages ps').find? n = some t' ∧ t'.type = t.type := by
  have hforemost := Scope.foremost_of_find? ht
  obtain ⟨t', hnamed, hposition, hid, htype⟩ := h.exists_named hforemost.named
  refine ⟨t', Scope.find?_eq_some_iff.mpr ⟨hnamed, fun u hu => ?_, fun u hu huid => ?_⟩, htype⟩
  · obtain ⟨v, hv, -, hvid, -⟩ := h.symm.exists_named hu
    rw [hid, ← hvid]
    exact hforemost.longest v hv
  · obtain ⟨v, hv, hvposition, hvid, -⟩ := h.symm.exists_named hu
    rw [hposition, ← hvposition]
    exact hforemost.first v hv (hvid.trans (huid.trans hid))

private theorem SameTypes.alike (h : SameTypes ps ps') :
    Scope.Alike (Scope.ofPackages ps) (Scope.ofPackages ps') := by
  intro n
  exact Scope.resolve_type_congr (fun _ ht => h.exists_find? ht)
    fun _ ht => h.symm.exists_find? ht

/-- Where no fewer requests and responses can be walked from, fewer can, and no name is added. -/
theorem reachable_mono (h : SameTypes ps ps')
    (hroots : ps.flatMap (·.roots) ⊆ ps'.flatMap (·.roots)) (hused' : reachable ps' = .ok used') :
    ∃ used, reachable ps = .ok used ∧ ∀ n, used.contains n = true → used'.contains n = true := by
  have hmeets (n : String) (hn : (Scope.ofPackages ps).Meets (ps.flatMap (·.roots)) n) :
      (Scope.ofPackages ps').Meets (ps'.flatMap (·.roots)) n := hn.mono h.alike hroots
  obtain ⟨used, hused⟩ : ∃ used, reachable ps = .ok used := by
    refine Scope.exists_walk_iff.mpr fun n hn => ?_
    obtain ⟨t', ht'⟩ := Scope.exists_walk_iff.mp ⟨used', hused'⟩ n (hmeets n hn)
    obtain ⟨t, ht, -⟩ := h.symm.alike.exists_resolve ht'
    exact ⟨t, ht⟩
  refine ⟨used, hused, fun n hn => ?_⟩
  exact (Scope.contains_walk_iff hused').mpr (hmeets n ((Scope.contains_walk_iff hused).mp hn))

private theorem reachable_of_same_roots (h : SameTypes ps ps')
    (hroots : ∀ type, type ∈ ps.flatMap (·.roots) ↔ type ∈ ps'.flatMap (·.roots))
    (hused : reachable ps = .ok used) : reachable ps' = .ok used := by
  obtain ⟨used', hused', hsub⟩ := reachable_mono h.symm (fun _ => (hroots _).mpr) hused
  obtain ⟨used'', hused'', hsup⟩ := reachable_mono h (fun _ => (hroots _).mp) hused'
  obtain rfl : used'' = used := Except.ok.inj (hused''.symm.trans hused)
  obtain rfl : used' = used'' := NameSet.ext_contains fun n => ⟨hsub n, hsup n⟩
  exact hused'

/-! ## One endpoint of all -/

/-- Where an endpoint stands: the positions of its package, of its service there, and its own. -/
structure Place where
  package : Nat
  service : Nat
  endpoint : Nat

namespace Place

variable {place : Place} {e : Endpoint}

def endpoint? (place : Place) (ps : List Package) : Option Endpoint := do
  let p ← ps[place.package]?
  let service ← p.services[place.service]?
  service.endpoints[place.endpoint]?

/-- The packages without any endpoint but the one at a place. -/
def only (place : Place) (ps : List Package) : List Package :=
  ps.mapIdx fun i p => { p with
    services := p.services.mapIdx fun j service => { service with
      endpoints := if i = place.package ∧ j = place.service then
        service.endpoints[place.endpoint]?.toList else [] } }

private theorem endpoint?_eq_some_iff : place.endpoint? ps = some e ↔
    ∃ p service, ps[place.package]? = some p ∧ p.services[place.service]? = some service ∧
      service.endpoints[place.endpoint]? = some e := by
  simp only [endpoint?, Option.bind_eq_bind, Option.bind_eq_some_iff]
  constructor
  · intro h
    obtain ⟨p, hp, service, hservice, he⟩ := h
    exact ⟨p, service, hp, hservice, he⟩
  · intro h
    obtain ⟨p, service, hp, hservice, he⟩ := h
    exact ⟨p, hp, service, hservice, he⟩

private theorem exists_endpoint?_iff : (∃ place : Place, place.endpoint? ps = some e) ↔
    ∃ p ∈ ps, e ∈ p.endpoints := by
  simp only [endpoint?_eq_some_iff, Package.endpoints, List.mem_flatMap]
  constructor
  · intro h
    obtain ⟨place, p, service, hp, hservice, he⟩ := h
    exact ⟨p, List.mem_of_getElem? hp, service, List.mem_of_getElem? hservice,
      List.mem_of_getElem? he⟩
  · intro h
    obtain ⟨p, hp, service, hservice, he⟩ := h
    obtain ⟨i, hi⟩ := List.getElem?_of_mem hp
    obtain ⟨j, hj⟩ := List.getElem?_of_mem hservice
    obtain ⟨k, hk⟩ := List.getElem?_of_mem he
    exact ⟨⟨i, j, k⟩, p, service, hi, hj, hk⟩

private theorem sameTypes_only (place : Place) (ps : List Package) :
    SameTypes ps (place.only ps) := by
  apply List.ext_getElem?
  intro i
  rw [only, List.getElem?_map, List.getElem?_map, List.getElem?_mapIdx, Option.map_map]
  rfl

private theorem mem_endpoints_only : (∃ p ∈ place.only ps, e ∈ p.endpoints) ↔
    place.endpoint? ps = some e := by
  simp only [endpoint?_eq_some_iff, Package.endpoints, List.mem_flatMap]
  constructor
  · intro h
    obtain ⟨p, hp, service, hservice, he⟩ := h
    obtain ⟨i, hi, rfl⟩ := List.mem_mapIdx.mp hp
    obtain ⟨j, hj, rfl⟩ := List.mem_mapIdx.mp hservice
    split at he
    · rename_i hplace
      obtain ⟨rfl, rfl⟩ := hplace
      exact ⟨_, _, List.getElem?_eq_getElem hi, List.getElem?_eq_getElem hj,
        Option.mem_toList.mp he⟩
    · exact absurd he List.not_mem_nil
  · intro h
    obtain ⟨p, service, hp, hservice, he⟩ := h
    obtain ⟨hi, rfl⟩ := List.getElem?_eq_some_iff.mp hp
    obtain ⟨hj, rfl⟩ := List.getElem?_eq_some_iff.mp hservice
    refine ⟨_, List.mem_mapIdx.mpr ⟨_, hi, rfl⟩, _, List.mem_mapIdx.mpr ⟨_, hj, rfl⟩, ?_⟩
    rw [if_pos ⟨rfl, rfl⟩]
    exact Option.mem_toList.mpr he

private theorem mem_roots_only (he : place.endpoint? ps = some e) {type : TypeDoc} :
    type ∈ (place.only ps).flatMap (·.roots) ↔ type ∈ [e.request, e.response] := by
  rw [mem_roots_iff]
  constructor
  · intro h
    obtain ⟨p, hp, e', he', htype⟩ := h
    have hsame := mem_endpoints_only.mp ⟨p, hp, he'⟩
    rw [he] at hsame
    exact Option.some.inj hsame ▸ htype
  · intro h
    obtain ⟨p, hp, he⟩ := mem_endpoints_only.mpr he
    exact ⟨p, hp, e, he, h⟩

private theorem roots_only_subset (he : place.endpoint? ps = some e) :
    (place.only ps).flatMap (·.roots) ⊆ ps.flatMap (·.roots) := by
  intro type htype
  obtain ⟨p, hp, he'⟩ := exists_endpoint?_iff.mp ⟨place, he⟩
  exact mem_roots_iff.mpr ⟨p, hp, e, he', (mem_roots_only he).mp htype⟩

private theorem meets_iff_exists_only : (Scope.ofPackages ps).Meets (ps.flatMap (·.roots)) n ↔
    ∃ (place : Place) (e : Endpoint), place.endpoint? ps = some e ∧
      (Scope.ofPackages (place.only ps)).Meets ((place.only ps).flatMap (·.roots)) n := by
  constructor
  · intro h
    obtain ⟨type, htype, hn⟩ := h.exists_mem
    obtain ⟨p, hp, e, he, htype⟩ := mem_roots_iff.mp htype
    obtain ⟨place, he⟩ := exists_endpoint?_iff.mpr ⟨p, hp, he⟩
    refine ⟨place, e, he, hn.mono (sameTypes_only place ps).alike ?_⟩
    exact List.cons_subset.mpr ⟨(mem_roots_only he).mpr htype, List.nil_subset _⟩
  · intro h
    obtain ⟨place, e, he, hn⟩ := h
    exact hn.mono (sameTypes_only place ps).symm.alike (roots_only_subset he)

private theorem exists_reachable_only (he : place.endpoint? ps = some e)
    (hused : reachable ps = .ok used) :
    ∃ used', reachable (place.only ps) = .ok used' := by
  obtain ⟨used', hused', -⟩ :=
    reachable_mono (sameTypes_only place ps).symm (roots_only_subset he) hused
  exact ⟨used', hused'⟩

end Place

/-- Walking from all endpoints succeeds when walking from each one alone does, and then records what
these walks record together. So the names do not depend on the order of the requests and responses,
in whatever services they stand, and with more of them there are no fewer names. -/
theorem reachable_separately (ps : List Package) :
    ((∃ used, reachable ps = .ok used) ↔
      ∀ (place : Place) (e : Endpoint), place.endpoint? ps = some e →
        ∃ used, reachable (place.only ps) = .ok used) ∧
    (∀ used, reachable ps = .ok used → ∀ n, used.contains n = true ↔
      ∃ (place : Place) (e : Endpoint) (used' : NameSet), place.endpoint? ps = some e ∧
        reachable (place.only ps) = .ok used' ∧ used'.contains n = true) ∧
    (∀ ps', SameTypes ps ps' → (ps.flatMap (·.roots)).Perm (ps'.flatMap (·.roots)) →
      ∀ used, reachable ps' = .ok used ↔ reachable ps = .ok used) ∧
    ∀ ps', SameTypes ps ps' → ps.flatMap (·.roots) ⊆ ps'.flatMap (·.roots) →
      ∀ used', reachable ps' = .ok used' → ∃ used, reachable ps = .ok used ∧
        ∀ n, used.contains n = true → used'.contains n = true := by
  refine ⟨⟨fun h place e he => ?_, fun h => ?_⟩, fun used hused n => ⟨fun hn => ?_, fun h => ?_⟩,
    fun ps' h hperm used => ?_, fun ps' h hroots used' hused' => reachable_mono h hroots hused'⟩
  · obtain ⟨used, hused⟩ := h
    exact Place.exists_reachable_only he hused
  · refine Scope.exists_walk_iff.mpr fun n hn => ?_
    obtain ⟨place, e, he, hn⟩ := Place.meets_iff_exists_only.mp hn
    obtain ⟨t, ht⟩ := Scope.exists_walk_iff.mp (h place e he) n hn
    obtain ⟨t', ht', -⟩ := (Place.sameTypes_only place ps).symm.alike.exists_resolve ht
    exact ⟨t', ht'⟩
  · obtain ⟨place, e, he, hmeets⟩ :=
      Place.meets_iff_exists_only.mp ((Scope.contains_walk_iff hused).mp hn)
    obtain ⟨used', hused'⟩ := Place.exists_reachable_only he hused
    exact ⟨place, e, used', he, hused', (Scope.contains_walk_iff hused').mpr hmeets⟩
  · obtain ⟨place, e, used', he, hused', hn⟩ := h
    refine (Scope.contains_walk_iff hused).mpr (Place.meets_iff_exists_only.mpr ⟨place, e, he, ?_⟩)
    exact (Scope.contains_walk_iff hused').mp hn
  · constructor
    · exact reachable_of_same_roots h.symm fun _ => hperm.symm.mem_iff
    · exact reachable_of_same_roots h fun _ => hperm.mem_iff

/-- The packages of a loop with other services in the second one. -/
def servingPackages (services : List Doc.Service) : List Package :=
  loopPackages.modify 1 fun p => { p with services }

/-- With one more endpoint the loop is met from both sides; and where services are exchanged, and
the request of one with its response, the names are the same. -/
theorem reachable_separately_servingPackages :
    let node : Endpoint := .requesting (.ref "p.Node")
    let peer : Endpoint := .requesting (.ref "p.q.Peer")
    let turned : Endpoint := { peer with request := peer.response, response := peer.request }
    let ps := servingPackages [⟨"S", "", [node]⟩, ⟨"T", "", [peer]⟩]
    let ps' := servingPackages [⟨"T", "", [turned]⟩, ⟨"S", "", [node]⟩]
    ∃ used, reachable ps = .ok used ∧ reachable ps' = .ok used ∧
      (∃ used', reachable (Place.only ⟨1, 1, 0⟩ ps) = .ok used') ∧
      ∀ n, loopNames.contains n = true → used.contains n = true := by
  intro node peer turned ps ps'
  obtain ⟨hseparate, -, hperm, -⟩ := reachable_separately ps
  obtain ⟨used, hused⟩ := @exists_reachable_of_resolveAll ps (by cbv)
  have hroots : (ps.flatMap (·.roots)).Perm (ps'.flatMap (·.roots)) :=
    (@List.perm_append_comm _ [node.request, node.response] _).trans (.swap _ _ _)
  obtain ⟨-, hloop, -⟩ := prune_eq_ok_iff.mp prune_loopPackages
  obtain ⟨names, hnames, hsub⟩ :=
    (reachable_separately loopPackages).2.2.2 ps rfl (List.subset_append_left _ _) used hused
  obtain rfl : names = loopNames := Except.ok.inj (hnames.symm.trans hloop)
  exact ⟨used, hused, (hperm ps' rfl hroots used).mpr hused, hseparate.mp ⟨used, hused⟩ _ peer rfl,
    hsub⟩

end SchemaDocs
