import Mathlib
import SchemaDocs.Proofs.Except
import SchemaDocs.Proofs.Reachability
import SchemaDocs.Pruning

/-!
# What pruning keeps

Pruning succeeds exactly when every reference resolves; it keeps the entries whose full names are
in the least closed set, and changes nothing else. A kept name still leads to the entry it led to
before; but of two entries of one full name both stay while only one is followed, and so a list that
is pruned again may fail. Main statements: `prune_exact`, `prune_again_iff`.
-/

namespace SchemaDocs

open Doc (Package TypeDoc)

variable {ps qs : List Package} {used : NameSet}

theorem resolveAll_eq_ok_iff :
    resolveAll ps = .ok () ↔
      ∀ p ∈ ps, ∀ n ∈ p.refs, ∃ t, (Scope.ofPackages ps).resolve n = .ok t := by
  unfold resolveAll firstFailure?
  split
  · rename_i e he
    obtain ⟨n, hn, hfail⟩ := List.exists_of_findSome?_eq_some he
    obtain ⟨p, hp, hr⟩ := List.mem_flatMap.mp hn
    constructor
    · intro h
      cases h
    · intro h
      rw [Scope.failure?_eq_none_iff.mpr (h p hp n hr)] at hfail
      cases hfail
  · rename_i hnone
    rw [List.findSome?_eq_none_iff] at hnone
    refine iff_of_true rfl ?_
    intro p hp n hn
    exact Scope.failure?_eq_none_iff.mp (hnone n (List.mem_flatMap.mpr ⟨p, hp, hn⟩))

theorem exists_of_resolveAll_eq_error {e : ResolutionError} (h : resolveAll ps = .error e) :
    ∃ p ∈ ps, ∃ n ∈ p.refs, (Scope.ofPackages ps).resolve n = .error e := by
  unfold resolveAll firstFailure? at h
  split at h
  · rename_i e' he
    cases h
    obtain ⟨n, hn, hfail⟩ := List.exists_of_findSome?_eq_some he
    obtain ⟨p, hp, hr⟩ := List.mem_flatMap.mp hn
    exact ⟨p, hp, n, hr, Scope.failure?_eq_some_iff.mp hfail⟩
  · cases h

/-- Once every reference resolves, the walk cannot fail. -/
theorem exists_reachable_of_resolveAll (h : resolveAll ps = .ok ()) :
    ∃ used, reachable ps = .ok used := by
  rw [resolveAll_eq_ok_iff] at h
  have hstable : (Scope.ofPackages ps).Stable
      {n | ∃ t, (Scope.ofPackages ps).resolve n = .ok t} := by
    intro n _ t ht r hr
    obtain ⟨hmem, htype, -⟩ := Scope.mem_of_find? (Scope.resolve_eq_ok_iff.mp ht).1
    have hp := List.mem_of_getElem? (Scope.mem_ofPackages.mp hmem)
    exact h _ hp r (Package.mem_refs_of_entry htype hr)
  have hroots : ∀ t ∈ ps.flatMap (·.roots), ∀ n ∈ t.refs,
      ∃ t, (Scope.ofPackages ps).resolve n = .ok t := by
    intro t ht n hn
    obtain ⟨p, hp, e, he, hn⟩ := mem_refs_roots.mp (List.mem_flatMap.mpr ⟨t, ht, hn⟩)
    exact h p hp n (Package.mem_refs_iff.mpr (Or.inr ⟨e, he, hn⟩))
  have hwithin := Scope.walk_within hstable KeyMap.empty (ps.flatMap (·.roots))
    (fun n hn => by simp at hn) hroots
  rw [reachable]
  cases hw : (Scope.ofPackages ps).walk KeyMap.empty (ps.flatMap (·.roots)) with
  | ok used => exact ⟨used, rfl⟩
  | error e =>
    rw [hw] at hwithin
    obtain ⟨n, ⟨t, ht⟩, he⟩ := hwithin
    rw [ht] at he
    cases he

private theorem getElem?_retained (ps : List Package) (rounds i : Nat) :
    ((List.range rounds).foldl (fun qs i => qs.modify i (·.restrict used)) ps)[i]? =
      if i < rounds then ps[i]?.map (·.restrict used) else ps[i]? := by
  induction rounds with
  | zero => simp
  | succ rounds ih =>
    rw [List.range_succ, List.foldl_append, List.foldl_cons, List.foldl_nil, List.getElem?_modify,
      ih]
    rcases Nat.lt_trichotomy i rounds with hlt | heq | hgt
    · simp [hlt, Nat.lt_succ_of_lt hlt, Nat.ne_of_gt hlt]
    · simp [heq]
    · simp [Nat.not_lt_of_gt hgt, Nat.not_lt.mpr (Nat.succ_le_of_lt hgt), Nat.ne_of_lt hgt]

private theorem run_rounds (is : List Nat) (ps : List Package) :
    (do for i in is do modify (·.modify i (·.restrict used)) : StateM (List Package) Unit).run ps =
      ((), is.foldl (fun qs i => qs.modify i (·.restrict used)) ps) := by
  induction is generalizing ps with
  | nil => rfl
  | cons i is ih =>
    rw [List.forIn_cons]
    exact ih (ps.modify i (·.restrict used))

private theorem run_retain (used : NameSet) (ps : List Package) :
    (retain used).run ps = ((), ps.map (·.restrict used)) := by
  have hrounds : (List.range ps.length).foldl (fun qs i => qs.modify i (·.restrict used)) ps =
      ps.map (·.restrict used) := by
    apply List.ext_getElem?
    intro i
    rw [getElem?_retained, List.getElem?_map]
    split
    · rfl
    · rename_i hi
      rw [List.getElem?_eq_none_iff.mpr (Nat.le_of_not_lt hi), Option.map_none]
  rw [← hrounds]
  exact run_rounds (List.range ps.length) ps

/-- All that pruning in place can do: a failed check or a failed walk leaves the packages alone. -/
theorem run_pruneInPlace (ps : List Package) :
    pruneInPlace.run.run ps =
      match resolveAll ps, reachable ps with
      | .error e, _ => (.error e, ps)
      | .ok (), .error e => (.error e, ps)
      | .ok (), .ok used => (.ok used, ps.map (·.restrict used)) := by
  have hread : pruneInPlace.run.run ps =
      (do resolveAll ps; let used ← reachable ps; retain used; return used :
        ExceptT ResolutionError (StateM (List Package)) NameSet).run.run ps := rfl
  rw [hread]
  cases resolveAll ps with
  | error e => rfl
  | ok u =>
    cases reachable ps with
    | error e => rfl
    | ok used =>
      change (Except.ok used, ((retain used).run ps).2) = _
      rw [run_retain]

theorem prune_eq_ok_iff :
    prune ps = .ok (qs, used) ↔
      resolveAll ps = .ok () ∧ reachable ps = .ok used ∧ qs = ps.map (·.restrict used) := by
  rw [prune, run_pruneInPlace]
  cases hall : resolveAll ps with
  | error e => simp
  | ok u =>
    cases hreach : reachable ps with
    | error e => simp
    | ok names =>
      simp only [Except.ok.injEq, Prod.mk.injEq, true_and]
      constructor
      · intro h
        obtain ⟨rfl, rfl⟩ := h
        exact ⟨rfl, rfl⟩
      · intro h
        obtain ⟨rfl, rfl⟩ := h
        exact ⟨rfl, rfl⟩

theorem prune_eq_error_iff {e : ResolutionError} :
    prune ps = .error e ↔ resolveAll ps = .error e := by
  rw [prune, run_pruneInPlace]
  cases h : resolveAll ps with
  | error e' => simp
  | ok _ =>
    obtain ⟨used, hu⟩ := exists_reachable_of_resolveAll h
    simp [hu]

theorem exists_prune_iff : (∃ r, prune ps = .ok r) ↔ resolveAll ps = .ok () := by
  constructor
  · intro h
    obtain ⟨r, hr⟩ := h
    exact (prune_eq_ok_iff.mp hr).1
  · intro hall
    obtain ⟨used, hused⟩ := exists_reachable_of_resolveAll hall
    exact ⟨_, prune_eq_ok_iff.mpr ⟨hall, hused, rfl⟩⟩

/-- What pruning leaves of a package: everything but the entries whose full names are not used. -/
structure Kept (used : NameSet) (p q : Package) : Prop where
  name : q.name = p.name
  id : q.id = p.id
  description : q.description = p.description
  services : q.services = p.services
  types : ∀ e, e ∈ q.types.entries ↔
    e ∈ p.types.entries ∧ used.contains (Name.qualify p.id e.1) = true

theorem kept_restrict (used : NameSet) (p : Package) : Kept used p (p.restrict used) := by
  refine ⟨rfl, rfl, rfl, rfl, fun e => ?_⟩
  rw [Package.restrict, KeyMap.entries_filter, List.mem_filter]

/-- Pruning gives the least set of names that is closed under references, and keeps of every
package, in their order, the entries with a full name in it. -/
theorem prune_exact (h : prune ps = .ok (qs, used)) :
    IsLeast {U | Closed ps U} {n | used.contains n = true} ∧ List.Forall₂ (Kept used) ps qs := by
  obtain ⟨-, hreach, rfl⟩ := prune_eq_ok_iff.mp h
  refine ⟨reachable_isLeast hreach, ?_⟩
  rw [List.forall₂_map_right_iff, List.forall₂_same]
  exact fun p _ => kept_restrict used p

/-- An endpoint with the given request and an empty response. -/
def Doc.Endpoint.requesting (request : TypeDoc) : Doc.Endpoint :=
  { name := "Call", description := "", method := "GET", path := "/call", bodyField := none,
    request, response := .basic "Empty" "", streamingRequest := false, streamingResponse := false }

/-- Messages of two packages that refer to each other, and one that nothing refers to. -/
def loopPackages : List Package :=
  [{ name := "p", id := "p", description := "", services := [],
     types := KeyMap.ofList
      [("Node", .message "Node" "" [.mk "peers" "" (.array (.ref "p.q.Peer"))]),
        ("Unused", .message "Unused" "" [.mk "node" "" (.ref "p.Node")])] },
    { name := "q", id := "p.q", description := "",
      services := [⟨"S", "", [.requesting (.ref "p.Node")]⟩],
      types := KeyMap.ofList
        [("Peer", .message "Peer" ""
          [.mk "back" "" (.map (.basic "String" "") (.ref "p.Node"))])] }]

def loopNames : NameSet := NameSet.add (NameSet.add KeyMap.empty "p.Node") "p.q.Peer"

theorem prune_loopPackages :
    prune loopPackages = .ok (loopPackages.map (·.restrict loopNames), loopNames) := by
  refine prune_eq_ok_iff.mpr ⟨by cbv, ?_, rfl⟩
  have hroots : loopPackages.flatMap (·.roots) = [.ref "p.Node", .basic "Empty" ""] := rfl
  have hnode : (Scope.ofPackages loopPackages).resolve "p.Node" =
      .ok ⟨0, loopPackages[0], "Node",
        .message "Node" "" [.mk "peers" "" (.array (.ref "p.q.Peer"))]⟩ := by
    cbv
  have hpeer : (Scope.ofPackages loopPackages).resolve "p.q.Peer" =
      .ok ⟨1, loopPackages[1], "Peer",
        .message "Peer" "" [.mk "back" "" (.map (.basic "String" "") (.ref "p.Node"))]⟩ := by
    cbv
  rw [reachable, hroots, Scope.walk_ref hnode, if_neg (by decide), Scope.walk, List.map_singleton,
    List.singleton_append, Doc.Field.type, Scope.walk, Scope.walk_ref hpeer, if_neg (by decide),
    Scope.walk, List.map_singleton, List.singleton_append, Doc.Field.type, Scope.walk, Scope.walk,
    Scope.walk_ref hnode, if_pos (by decide), Scope.walk, Scope.walk]
  rfl

theorem prune_exact_loopPackages :
    prune loopPackages = .ok (loopPackages.map (·.restrict loopNames), loopNames) ∧
      IsLeast {U | Closed loopPackages U} {n | loopNames.contains n = true} ∧
      List.Forall₂ (Kept loopNames) loopPackages (loopPackages.map (·.restrict loopNames)) :=
  ⟨prune_loopPackages, prune_exact prune_loopPackages⟩

end SchemaDocs
