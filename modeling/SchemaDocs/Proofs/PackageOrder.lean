import SchemaDocs.Proofs.Agreement
import SchemaDocs.Proofs.Name
import SchemaDocs.Proofs.Pruning

/-!
# The order of packages

Packages are asked for a name by the length of their identifiers. Two of them with the name and with
identifiers of one length have the same identifier and key; so unless packages of one identifier
share a key, what a name finds does not depend on the order of the list. Main statement:
`prune_perm`.
-/

namespace SchemaDocs

open Doc (Package TypeDoc)

variable {ps ps' qs qs' : List Package} {used used' : NameSet} {name : String}

/-- Two packages have different identifiers, or no key in common. -/
def Apart (p q : Package) : Prop := p.id = q.id → ∀ key ∈ p.types.keys, key ∉ q.types.keys

instance : Std.Symm Apart :=
  ⟨fun _ _ hapart hid key hkey hkey' => hapart hid.symm key hkey' hkey⟩

/-- Packages of one identifier have no key in common. -/
def KeysApart (ps : List Package) : Prop := ps.Pairwise Apart

private theorem keysApart_of_perm (hperm : ps.Perm ps') (h : KeysApart ps) : KeysApart ps' :=
  h.perm hperm (Std.Symm.symm _ _)

private theorem KeysApart.eq_of_mem (h : KeysApart ps) {p q : Package} (hp : p ∈ ps) (hq : q ∈ ps)
    (hid : p.id = q.id) {key : String} (hkey : key ∈ p.types.keys) (hkey' : key ∈ q.types.keys) :
    p = q := by
  by_contra hne
  exact h.forall hp hq hne hid key hkey hkey'

namespace Scope

private theorem pairwise_ofPackages (ps : List Package) :
    (ofPackages ps).Pairwise fun a b => b.1.id.utf8ByteSize ≤ a.1.id.utf8ByteSize := by
  have hsorted : (ofPackages ps).Pairwise
      fun a b => (b.1.id.utf8ByteSize ≤ a.1.id.utf8ByteSize : Bool) :=
    List.pairwise_mergeSort (by simp; omega) (by simp; omega) ps.zipIdx
  simpa using hsorted

theorem size_le_of_find? {t : Target} (h : (ofPackages ps).find? name = some t) {p : Package}
    {key : String} {type : TypeDoc} (hp : p ∈ ps) (hget : p.types.get? key = some type)
    (hname : Name.qualify p.id key = name) : p.id.utf8ByteSize ≤ t.package.id.utf8ByteSize := by
  obtain ⟨i, hi⟩ := List.getElem?_of_mem hp
  have hlook : lookIn? name (p, i) = some ⟨i, p, key, type⟩ :=
    lookIn?_eq_some_iff.mpr ⟨rfl, hget, hname⟩
  rcases rel_of_find? (pairwise_ofPackages ps) h (mem_ofPackages.mpr hi) hlook with hsame | hle
  · cases hsame
    exact Nat.le_refl _
  · exact hle

private theorem exists_find?_perm (hperm : ps.Perm ps') (hapart : KeysApart ps) {t : Target}
    (ht : (ofPackages ps).find? name = some t) :
    ∃ t', (ofPackages ps').find? name = some t' ∧ t'.type = t.type := by
  obtain ⟨hmem, hget, hname⟩ := mem_of_find? ht
  have hp : t.package ∈ ps := List.mem_of_getElem? (mem_ofPackages.mp hmem)
  obtain ⟨j, hj⟩ := List.getElem?_of_mem (hperm.mem_iff.mp hp)
  obtain ⟨t', ht'⟩ := exists_find? (mem_ofPackages.mpr hj) hget hname
  refine ⟨t', ht', ?_⟩
  obtain ⟨hmem', hget', hname'⟩ := mem_of_find? ht'
  have hp' : t'.package ∈ ps' := List.mem_of_getElem? (mem_ofPackages.mp hmem')
  have hsize := size_le_of_find? ht (hperm.mem_iff.mpr hp') hget' hname'
  have hsize' := size_le_of_find? ht' (hperm.mem_iff.mp hp) hget hname
  obtain ⟨hid, hkey⟩ := Name.qualify_inj_of_size (hname'.trans hname.symm)
    (Nat.le_antisymm hsize hsize')
  have hkeys : t.key ∈ t'.package.types.keys := hkey ▸ KeyMap.mem_keys_of_get? hget'
  have hsame : t'.package = t.package :=
    hapart.eq_of_mem (hperm.mem_iff.mpr hp') hp hid hkeys (KeyMap.mem_keys_of_get? hget)
  rw [hsame, hkey, hget] at hget'
  exact (Option.some.inj hget').symm

/-- In any order of the list a name leads to the same type, or to none for the same reason. -/
theorem resolve_type_perm (hperm : ps.Perm ps') (hapart : KeysApart ps) (name : String) :
    ((ofPackages ps).resolve name).map (·.type) = ((ofPackages ps').resolve name).map (·.type) :=
  resolve_type_congr (fun _ ht => exists_find?_perm hperm hapart ht)
    fun _ ht => exists_find?_perm hperm.symm (keysApart_of_perm hperm hapart) ht

end Scope

private theorem agreeOn_perm (hperm : ps.Perm ps') (hapart : KeysApart ps) :
    AgreeOn Set.univ ps ps' := by
  constructor
  case roots => exact fun n => ((hperm.flatMap_right _).flatMap_right _).mem_iff
  case types => exact fun n _ => Scope.resolve_type_perm hperm hapart n

private theorem resolveAll_perm (hperm : ps.Perm ps') (hapart : KeysApart ps)
    (hall : resolveAll ps = .ok ()) : resolveAll ps' = .ok () := by
  refine resolveAll_eq_ok_iff.mpr fun p hp n hn => ?_
  obtain ⟨t, ht⟩ := resolveAll_eq_ok_iff.mp hall p (hperm.mem_iff.mpr hp) n hn
  obtain ⟨t', ht', -⟩ := (agreeOn_perm hperm hapart).exists_resolve (Set.mem_univ n) ht
  exact ⟨t', ht'⟩

/-- Where packages of one identifier have no key in common, the order of a list plays no part in
pruning it: in any order it succeeds or fails, with the same used names, and leaves each package,
wherever that stands, with the same types. -/
theorem prune_perm (hperm : ps.Perm ps') (hapart : KeysApart ps) :
    ((∃ r, prune ps = .ok r) ↔ ∃ r, prune ps' = .ok r) ∧
      ∀ qs used qs' used', prune ps = .ok (qs, used) → prune ps' = .ok (qs', used') →
        used' = used ∧ qs'.Perm qs ∧ ∀ (i j : Nat) p, ps[i]? = some p → ps'[j]? = some p →
          ∃ q, qs[i]? = some q ∧ qs'[j]? = some q ∧ Kept used p q := by
  constructor
  · rw [exists_prune_iff, exists_prune_iff]
    exact ⟨resolveAll_perm hperm hapart,
      resolveAll_perm hperm.symm (keysApart_of_perm hperm hapart)⟩
  · intro qs used qs' used' h h'
    obtain ⟨-, hused, rfl⟩ := prune_eq_ok_iff.mp h
    obtain ⟨-, hused', rfl⟩ := prune_eq_ok_iff.mp h'
    have hagree := (agreeOn_perm hperm hapart).mono (Set.subset_univ {n | used.contains n = true})
    obtain rfl : used' = used := hagree.reachable_eq hused hused'
    refine ⟨rfl, (hperm.map _).symm, fun i j p hp hp' => ⟨p.restrict used', ?_, ?_, ?_⟩⟩
    · rw [List.getElem?_map, hp, Option.map_some]
    · rw [List.getElem?_map, hp', Option.map_some]
    · exact kept_restrict used' p

/-- The packages of a loop and one more with the identifier of the first, whose entry has the same
key as the entry of the second. -/
def siblingPackages : List Package :=
  loopPackages ++
    [{ name := "r", id := "p", description := "",
       services := [⟨"S", "", [.requesting (.ref "p.q.Peer")]⟩],
       types := KeyMap.ofList [("Peer", .message "Peer" "" [.mk "node" "" (.ref "p.Node")])] }]

theorem prune_perm_siblingPackages :
    siblingPackages.Perm siblingPackages.reverse ∧ KeysApart siblingPackages ∧
      ∃ qs qs' used, prune siblingPackages = .ok (qs, used) ∧
        prune siblingPackages.reverse = .ok (qs', used) ∧ qs'.Perm qs ∧ qs[0]? = qs'[2]? := by
  have hperm : siblingPackages.Perm siblingPackages.reverse :=
    (List.reverse_perm siblingPackages).symm
  have hapart : KeysApart siblingPackages := by
    unfold KeysApart Apart
    decide
  obtain ⟨⟨qs, used⟩, h⟩ : ∃ r, prune siblingPackages = .ok r := exists_prune_iff.mpr (by cbv)
  obtain ⟨halike, hsame⟩ := prune_perm hperm hapart
  obtain ⟨⟨qs', used'⟩, h'⟩ := halike.mp ⟨_, h⟩
  obtain ⟨rfl, hqs, hkept⟩ := hsame qs used qs' used' h h'
  obtain ⟨q, hq, hq', -⟩ := hkept 0 2 _ rfl rfl
  exact ⟨hperm, hapart, qs, qs', used', h, h', hqs, hq.trans hq'.symm⟩

end SchemaDocs
