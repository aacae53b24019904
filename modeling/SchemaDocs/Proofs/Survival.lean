import Mathlib.Data.List.Nodup
import SchemaDocs.Proofs.Fixpoint
import SchemaDocs.Proofs.Reference

/-!
# What pruning keeps of a converted schema

In the packages of a schema no two entries have one full name. So an entry stays exactly when a
used name leads to it, every used name keeps one entry, and what stays leads to the same entries as
before. Main statement: `survival_exact`.
-/

namespace SchemaDocs
namespace Schema

open Doc (Package TypeDoc)

variable {s : Schema} {ps qs : List Package} {used : NameSet}

/-- A list of packages has an entry with the given full name: under a key of the package at a
position. -/
def EntryAt (qs : List Package) (name : String) (i : Nat) (key : String) : Prop :=
  ∃ q type, qs[i]? = some q ∧ q.types.get? key = some type ∧ Name.qualify q.id key = name

private theorem resolve_entry (hs : s.packages = .ok ps)
    (hdot : ∀ x ∈ s.declared, '.' ∉ x.declaration.name.toList) {i : Nat} {p : Package}
    {key : String} {type : TypeDoc} (hp : ps[i]? = some p) (hget : p.types.get? key = some type) :
    (Scope.ofPackages ps).resolve (Name.qualify p.id key) = .ok ⟨i, p, key, type⟩ := by
  have hmem : (p, i) ∈ Scope.ofPackages ps := Scope.mem_ofPackages.mpr hp
  obtain ⟨f, hf, hfp, d, hd, rfl, htype⟩ := (mem_entries_packages hs).mp ⟨hmem, hget⟩
  obtain ⟨-, hid, -⟩ := Conversion.package_eq_ok_iff.mp hfp
  obtain ⟨p', type', hp', -, htype', hresolve⟩ := resolve_qualify hs hdot hf hd
  rw [hp] at hp'
  cases hp'
  rw [htype] at htype'
  cases htype'
  rw [hid]
  exact hresolve

private theorem not_hidden (hs : s.packages = .ok ps)
    (hdot : ∀ x ∈ s.declared, '.' ∉ x.declaration.name.toList) {i : Nat} {p : Package}
    {key : String} {type : TypeDoc} (hp : ps[i]? = some p) (hget : p.types.get? key = some type) :
    ¬ Hidden ps i p key := by
  intro h
  obtain ⟨t, ht, hne⟩ := h
  rw [resolve_entry hs hdot hp hget] at ht
  cases ht
  exact hne rfl

private theorem entryAt_pruned_iff (h : prune ps = .ok (qs, used)) {name : String} {i : Nat}
    {key : String} :
    EntryAt qs name i key ↔ EntryAt ps name i key ∧ used.contains name = true := by
  obtain ⟨-, -, rfl⟩ := prune_eq_ok_iff.mp h
  simp only [EntryAt, List.getElem?_map, Option.map_eq_some_iff]
  constructor
  · intro hq
    obtain ⟨q, type, ⟨p, hp, rfl⟩, hget, hname⟩ := hq
    rw [Scope.get?_restrict] at hget
    split at hget
    · rename_i hu
      exact ⟨⟨p, type, hp, hget, hname⟩, hname ▸ hu⟩
    · cases hget
  · intro hp
    obtain ⟨⟨p, type, hp, hget, rfl⟩, hu⟩ := hp
    refine ⟨_, type, ⟨p, hp, rfl⟩, ?_, rfl⟩
    rw [Scope.get?_restrict, if_pos hu, hget]

private theorem entryAt_of_resolve {name : String} {t : Target}
    (ht : (Scope.ofPackages ps).resolve name = .ok t) : EntryAt ps name t.position t.key := by
  obtain ⟨hmem, hget, hname⟩ := Scope.mem_of_find? (Scope.resolve_eq_ok_iff.mp ht).1
  exact ⟨t.package, t.type, Scope.mem_ofPackages.mp hmem, hget, hname⟩

/-- In the packages of a schema the entries with a full name are those that the name leads to. -/
theorem entryAt_iff_resolve (hs : s.packages = .ok ps)
    (hdot : ∀ x ∈ s.declared, '.' ∉ x.declaration.name.toList) {name : String} {i : Nat}
    {key : String} :
    EntryAt ps name i key ↔ ∃ t, (Scope.ofPackages ps).resolve name = .ok t ∧
      t.position = i ∧ t.key = key := by
  constructor
  · intro h
    obtain ⟨p, type, hp, hget, rfl⟩ := h
    exact ⟨_, resolve_entry hs hdot hp hget, rfl, rfl⟩
  · intro h
    obtain ⟨t, ht, rfl, rfl⟩ := h
    exact entryAt_of_resolve ht

private theorem existsUnique_entryAt (hs : s.packages = .ok ps)
    (hdot : ∀ x ∈ s.declared, '.' ∉ x.declaration.name.toList)
    (h : prune ps = .ok (qs, used)) {name : String} (hu : used.contains name = true) :
    ∃! e : Nat × String, EntryAt qs name e.1 e.2 := by
  obtain ⟨-, hreach, -⟩ := prune_eq_ok_iff.mp h
  obtain ⟨t, ht⟩ := exists_resolve_of_reachable hreach hu
  refine ⟨(t.position, t.key), (entryAt_pruned_iff h).mpr ⟨entryAt_of_resolve ht, hu⟩, ?_⟩
  intro e he
  obtain ⟨t', ht', hi, hkey⟩ :=
    (entryAt_iff_resolve hs hdot).mp ((entryAt_pruned_iff h).mp he).1
  rw [ht] at ht'
  cases ht'
  exact Prod.ext hi.symm hkey.symm

/-! ## As many entries as used names -/

private theorem mem_names_iff {p : Package} {name : String} :
    name ∈ p.names ↔ ∃ key type, p.types.get? key = some type ∧ Name.qualify p.id key = name := by
  simp only [Package.names, KeyMap.keys, List.mem_map, KeyMap.get?_eq_some_iff]
  constructor
  · intro h
    obtain ⟨_, ⟨e, he, rfl⟩, hname⟩ := h
    exact ⟨e.1, e.2, he, hname⟩
  · intro h
    obtain ⟨key, type, he, hname⟩ := h
    exact ⟨key, ⟨_, he, rfl⟩, hname⟩

private theorem mem_names_packages_iff {name : String} :
    name ∈ ps.flatMap (·.names) ↔ ∃ i key, EntryAt ps name i key := by
  simp only [List.mem_flatMap, mem_names_iff, EntryAt]
  constructor
  · intro h
    obtain ⟨p, hp, key, type, hget, hname⟩ := h
    obtain ⟨i, hi⟩ := List.getElem?_of_mem hp
    exact ⟨i, key, p, type, hi, hget, hname⟩
  · intro h
    obtain ⟨i, key, p, type, hi, hget, hname⟩ := h
    exact ⟨p, List.mem_of_getElem? hi, key, type, hget, hname⟩

private theorem nodup_names (p : Package) : p.names.Nodup := by
  refine (KeyMap.nodup_keys p.types).map ?_
  intro key key' hsame
  have hstrip := congrArg (Name.strip? p.id) hsame
  simpa using hstrip

private theorem nodup_names_packages (hs : s.packages = .ok ps)
    (hdot : ∀ x ∈ s.declared, '.' ∉ x.declaration.name.toList) :
    (ps.flatMap (·.names)).Nodup := by
  refine List.nodup_flatMap.mpr ⟨fun p _ => nodup_names p, ?_⟩
  rw [List.pairwise_iff_getElem]
  intro i j hi hj hij name hni hnj
  obtain ⟨key, type, hget, hname⟩ := mem_names_iff.mp hni
  obtain ⟨key', type', hget', hname'⟩ := mem_names_iff.mp hnj
  have hri := resolve_entry hs hdot (List.getElem?_eq_getElem hi) hget
  have hrj := resolve_entry hs hdot (List.getElem?_eq_getElem hj) hget'
  rw [hname] at hri
  rw [hname', hri] at hrj
  cases hrj
  exact Nat.lt_irrefl _ hij

private theorem nodup_names_pruned (hs : s.packages = .ok ps)
    (hdot : ∀ x ∈ s.declared, '.' ∉ x.declaration.name.toList)
    (h : prune ps = .ok (qs, used)) : (qs.flatMap (·.names)).Nodup := by
  obtain ⟨-, -, rfl⟩ := prune_eq_ok_iff.mp h
  rw [List.flatMap_map]
  refine (nodup_names_packages hs hdot).sublist (List.Sublist.flatMap_right _ fun p _ => ?_)
  have hentries : (p.restrict used).types.entries.Sublist p.types.entries := List.filter_sublist
  exact (hentries.map _).map _

private theorem sum_size_pruned (hs : s.packages = .ok ps)
    (hdot : ∀ x ∈ s.declared, '.' ∉ x.declaration.name.toList)
    (h : prune ps = .ok (qs, used)) : (qs.map (·.types.size)).sum = used.size := by
  have hmem (name : String) : name ∈ qs.flatMap (·.names) ↔ name ∈ used.keys := by
    have hkeys : name ∈ used.keys ↔ used.contains name = true := by
      simp [KeyMap.keys, KeyMap.contains_iff, KeyMap.get?_eq_some_iff]
    rw [hkeys, mem_names_packages_iff]
    constructor
    · intro he
      obtain ⟨i, key, he⟩ := he
      exact ((entryAt_pruned_iff h).mp he).2
    · intro hu
      obtain ⟨e, he, -⟩ := existsUnique_entryAt hs hdot h hu
      exact ⟨e.1, e.2, he⟩
  have hperm := (List.perm_ext_iff_of_nodup (nodup_names_pruned hs hdot h)
    (KeyMap.nodup_keys used)).mpr hmem
  have hlength := hperm.length_eq
  simpa [List.length_flatMap, Package.names, KeyMap.keys, KeyMap.size] using hlength

/-! ## References of the pruned list -/

private theorem resolve_pruned_ref (hs : s.packages = .ok ps)
    (hdot : ∀ x ∈ s.declared, '.' ∉ x.declaration.name.toList)
    (h : prune ps = .ok (qs, used)) {q : Package} {r : String} (hq : q ∈ qs) (hr : r ∈ q.refs) :
    ∃ t, (Scope.ofPackages ps).resolve r = .ok t ∧
      (Scope.ofPackages qs).resolve r = .ok (t.restrict used) := by
  have hall : resolveAll qs = .ok () := by
    rw [resolveAll_pruned_iff_hidden h]
    intro i p hp e he _ hhidden
    exact absurd hhidden (not_hidden hs hdot hp (KeyMap.get?_eq_some_iff.mpr he))
  exact Scope.resolve_pruned h ((resolveAll_pruned_iff h).mp hall q hq r hr)

/-- In the pruned packages of a schema whose names have no dots the entries that stay are those
that used names lead to, one for each used name; and every reference that stays leads to the entry
that it led to before. -/
theorem survival_exact (hs : s.packages = .ok ps)
    (hdot : ∀ x ∈ s.declared, '.' ∉ x.declaration.name.toList)
    (h : prune ps = .ok (qs, used)) :
    (∀ i key, (∃ name, EntryAt qs name i key) ↔ ∃ name t, used.contains name = true ∧
      (Scope.ofPackages ps).resolve name = .ok t ∧ t.position = i ∧ t.key = key) ∧
    (∀ name, used.contains name = true → ∃! e : Nat × String, EntryAt qs name e.1 e.2) ∧
    (qs.map (·.types.size)).sum = used.size ∧
    ∀ q ∈ qs, ∀ r ∈ q.refs, ∃ t u, (Scope.ofPackages ps).resolve r = .ok t ∧
      (Scope.ofPackages qs).resolve r = .ok u ∧ u.position = t.position ∧ u.key = t.key ∧
      u.type = t.type := by
  refine ⟨fun i key => ?_, fun name hu => existsUnique_entryAt hs hdot h hu,
    sum_size_pruned hs hdot h, fun q hq r hr => ?_⟩
  · simp only [entryAt_pruned_iff h, entryAt_iff_resolve hs hdot]
    constructor
    · intro hstays
      obtain ⟨name, ⟨t, ht, hi, hkey⟩, hu⟩ := hstays
      exact ⟨name, t, hu, ht, hi, hkey⟩
    · intro hused
      obtain ⟨name, t, hu, ht, hi, hkey⟩ := hused
      exact ⟨name, ⟨t, ht, hi, hkey⟩, hu⟩
  · obtain ⟨t, ht, hu⟩ := resolve_pruned_ref hs hdot h hq hr
    exact ⟨t, t.restrict used, ht, hu, rfl, rfl, rfl⟩

/-- The shop with a method that asks for orders. -/
def servedShop : Schema :=
  ⟨[{ orderFile "shop.Order.Line" with
      services := [⟨"Orders", "", [⟨"Find", "", "shop.Order", "google.protobuf.Empty", false, false,
        some ⟨some (.get "/orders"), none⟩⟩]⟩] },
    .holding "base.proto" "" (.plain "Unit" "Unit")]⟩

def servedPackages : List Package :=
  [{ name := "", id := "", description := "", services := [],
     types := KeyMap.ofList [("Unit", .message "Unit" "" [])] },
    { name := "shop", id := "shop", description := "",
      services := [⟨"Orders", "", [⟨"Find", "", "GET", "/orders", none, .ref "shop.Order",
        .basic "Empty" "", false, false⟩]⟩],
      types := KeyMap.ofList
        [("Line", .message "Line" "" []),
          ("Order", .message "Order" "" [.mk "line" "" (.ref "shop.Line")])] }]

def servedNames : NameSet := NameSet.add (NameSet.add KeyMap.empty "shop.Order") "shop.Line"

theorem ordered_servedShop : servedShop.ordered = servedShop.files.reverse := by
  simp [ordered, servedShop, orderFile, File.holding, List.mergeSort]

theorem packages_servedShop : servedShop.packages = .ok servedPackages := by
  rw [packages_eq_ok_iff, ordered_servedShop]
  exact ⟨rfl, by cbv⟩

theorem reachable_of_orders {ps : List Package} {i : Nat} {p : Package}
    (hroots : ps.flatMap (·.roots) = [.ref "shop.Order", .basic "Empty" ""])
    (horder : (Scope.ofPackages ps).resolve "shop.Order" =
      .ok ⟨i, p, "Order", .message "Order" "" [.mk "line" "" (.ref "shop.Line")]⟩)
    (hline : (Scope.ofPackages ps).resolve "shop.Line" =
      .ok ⟨i, p, "Line", .message "Line" "" []⟩) : reachable ps = .ok servedNames := by
  rw [reachable, hroots, Scope.walk_ref horder, if_neg (by decide), Scope.walk, List.map_singleton,
    List.singleton_append, Doc.Field.type, Scope.walk_ref hline, if_neg (by decide), Scope.walk,
    List.map_nil, List.nil_append, Scope.walk, Scope.walk]
  rfl

theorem prune_servedPackages :
    prune servedPackages = .ok (servedPackages.map (·.restrict servedNames), servedNames) := by
  have hreachable : reachable servedPackages = .ok servedNames :=
    reachable_of_orders rfl (by cbv) (by cbv)
  exact prune_eq_ok_iff.mpr ⟨by cbv, hreachable, rfl⟩

/-- Both entries of the shop stay, and the entry of the other package goes. -/
theorem survival_exact_servedShop :
    let qs := servedPackages.map (·.restrict servedNames)
    servedShop.packages = .ok servedPackages ∧
      (∀ x ∈ servedShop.declared, '.' ∉ x.declaration.name.toList) ∧
      prune servedPackages = .ok (qs, servedNames) ∧
      (∃! e : Nat × String, EntryAt qs "shop.Line" e.1 e.2) ∧
      (qs.map (·.types.size)).sum = 2 ∧
      ∀ q ∈ qs, ∀ r ∈ q.refs, ∃ t u, (Scope.ofPackages servedPackages).resolve r = .ok t ∧
        (Scope.ofPackages qs).resolve r = .ok u ∧ u.position = t.position ∧ u.key = t.key ∧
        u.type = t.type := by
  have hdot : ∀ x ∈ servedShop.declared, '.' ∉ x.declaration.name.toList := by decide
  obtain ⟨-, hone, hsize, hrefs⟩ :=
    survival_exact packages_servedShop hdot prune_servedPackages
  exact ⟨packages_servedShop, hdot, prune_servedPackages, hone _ (by decide), hsize, hrefs⟩

end Schema
end SchemaDocs
