import SchemaDocs.Proofs.Registration

/-!
# The shape of converted packages

A package of a schema holds declarations under their own names, and nowhere else: a field, a request
or a response only names them. Arrays have items that are named or basic, and so are requests and
responses. A name that resolves thus leads to a declaration, and all that pruning can miss is the
name itself. Main statement: `packages_shaped`.
-/

namespace SchemaDocs

open Doc (TypeDoc Package)
open Schema (Index)

namespace Doc

namespace TypeDoc

/-- References and basic types. -/
def isLeaf : TypeDoc → Bool
  | ref .. | basic .. => true
  | _ => false

/-- What is written inside a type, the type itself included. -/
inductive Occurs : TypeDoc → TypeDoc → Prop
  | here (t : TypeDoc) : Occurs t t
  | item {u t : TypeDoc} : Occurs u t → Occurs u (.array t)
  | key {u k v : TypeDoc} : Occurs u k → Occurs u (.map k v)
  | value {u k v : TypeDoc} : Occurs u v → Occurs u (.map k v)
  | field {u : TypeDoc} {name description : String} {fields : List Field} {f : Field} :
    f ∈ fields → Occurs u f.type → Occurs u (.message name description fields)

/-- What a field is shown with: a leaf, an array of leaves, or a map of what fields are shown
with. -/
inductive IsUse : TypeDoc → Prop
  | leaf {t : TypeDoc} : t.isLeaf = true → IsUse t
  | array {t : TypeDoc} : t.isLeaf = true → IsUse (.array t)
  | map {k v : TypeDoc} : IsUse k → IsUse v → IsUse (.map k v)

def fieldTypes : TypeDoc → List TypeDoc
  | message _ _ fields => fields.map (·.type)
  | _ => []

variable {t u : TypeDoc}

private theorem IsUse.isDeclaration_eq_false (h : t.IsUse) : t.isDeclaration = false := by
  cases h with
  | leaf hleaf => cases t <;> simp_all [isLeaf, isDeclaration]
  | array => rfl
  | map => rfl

private theorem IsUse.isLeaf_of_array {item : TypeDoc} (h : (TypeDoc.array item).IsUse) :
    item.isLeaf = true := by
  cases h with
  | leaf hleaf => simp [isLeaf] at hleaf
  | array hleaf => exact hleaf

/-- Whatever is written inside a use is one. -/
theorem IsUse.of_occurs (h : t.IsUse) (hu : u.Occurs t) : u.IsUse := by
  induction hu with
  | here => exact h
  | item _ ih => exact ih (.leaf h.isLeaf_of_array)
  | key _ ih =>
    cases h with
    | leaf hleaf => simp [isLeaf] at hleaf
    | map hk _ => exact ih hk
  | value _ ih =>
    cases h with
    | leaf hleaf => simp [isLeaf] at hleaf
    | map _ hv => exact ih hv
  | field =>
    cases h with
    | leaf hleaf => simp [isLeaf] at hleaf

private theorem Occurs.eq_or_field (h : u.Occurs t) (ht : t.isDeclaration = true) :
    u = t ∨ ∃ f ∈ t.fieldTypes, u.Occurs f := by
  cases h with
  | here => exact .inl rfl
  | item | key | value => simp [isDeclaration] at ht
  | field hf hu => exact .inr ⟨_, List.mem_map_of_mem hf, hu⟩

end TypeDoc

/-- The types by which a package uses others: those of fields, requests and responses. -/
def Package.uses (p : Package) : List TypeDoc := p.types.values.flatMap (·.fieldTypes) ++ p.roots

/-- Declarations stand under their own names and only there; items of arrays, requests and responses
are leaves. -/
structure Package.Shaped (p : Package) : Prop where
  entry : ∀ key type, p.types.get? key = some type →
    type.isDeclaration = true ∧ type.name? = some key
  inline : ∀ t ∈ p.uses, ∀ u : TypeDoc, u.Occurs t → u.isDeclaration = false
  item : ∀ t ∈ p.types.values ++ p.roots, ∀ item, (TypeDoc.array item).Occurs t →
    item.isLeaf = true
  root : ∀ t ∈ p.roots, t.isLeaf = true

/-- A package has the shape where its entries are declarations, and its fields, requests and
responses use others in the right way. -/
theorem Package.shaped_of_uses {p : Package}
    (hentry : ∀ key type, p.types.get? key = some type →
      type.isDeclaration = true ∧ type.name? = some key)
    (hfield : ∀ type ∈ p.types.values, ∀ t ∈ type.fieldTypes, t.IsUse)
    (hroot : ∀ t ∈ p.roots, t.isLeaf = true) : p.Shaped := by
  constructor
  case entry => exact hentry
  case inline =>
    intro t ht u hu
    refine (TypeDoc.IsUse.of_occurs ?_ hu).isDeclaration_eq_false
    rcases List.mem_append.mp ht with ht | ht
    · obtain ⟨type, htype, ht⟩ := List.mem_flatMap.mp ht
      exact hfield type htype t ht
    · exact .leaf (hroot t ht)
  case item =>
    intro t ht item hitem
    rcases List.mem_append.mp ht with ht | ht
    · obtain ⟨key, hget⟩ := KeyMap.mem_values_iff.mp ht
      have hdeclaration := (hentry key t hget).1
      rcases hitem.eq_or_field hdeclaration with rfl | ⟨f, hf, hitem⟩
      · simp [TypeDoc.isDeclaration] at hdeclaration
      · exact ((hfield t ht f hf).of_occurs hitem).isLeaf_of_array
    · exact ((TypeDoc.IsUse.leaf (hroot t ht)).of_occurs hitem).isLeaf_of_array
  case root => exact hroot

end Doc

namespace Conversion

variable {ix : Index} {t : TypeDoc}

private theorem isLeaf_messageUse (target : String) : (messageUse ix target).isLeaf = true := by
  unfold messageUse
  split <;> rfl

private theorem isLeaf_elementType {f : Schema.Field} (h : elementType ix f = .ok t) :
    t.isLeaf = true := by
  unfold elementType at h
  split at h
  · cases h
    rfl
  · cases h
    exact isLeaf_messageUse f.target
  · split at h
    · cases h
      rfl
    · cases h

private theorem isUse_of_typeWithin {depth : Nat} {f : Schema.Field}
    (h : typeWithin ix depth f = .ok t) :
    t.IsUse := by
  induction depth using Nat.strongRecOn generalizing f t with
  | ind depth ih =>
    cases hmap : f.isMap with
    | false =>
      obtain ⟨element, helement, rfl⟩ := (typeWithin_of_not_map hmap).mp h
      have hleaf := isLeaf_elementType helement
      split
      · exact .array hleaf
      · exact .leaf hleaf
    | true =>
      obtain ⟨depth', m, key, value, rest, k, v, rfl, -, -, hk, hv, rfl⟩ := typeWithin_of_map hmap h
      exact .map (ih depth' (Nat.lt_succ_self _) hk) (ih depth' (Nat.lt_succ_self _) hv)

private theorem name?_of_declaration {d : Schema.Declaration} (h : declaration ix d = .ok t) :
    t.name? = some d.name := by
  cases describes_of_declaration h with
  | enum => rfl
  | message => rfl

private theorem isUse_of_declaration {d : Schema.Declaration} (h : declaration ix d = .ok t) :
    ∀ u ∈ t.fieldTypes, u.IsUse := by
  cases d with
  | enum e =>
    cases h
    simp [enum, TypeDoc.fieldTypes]
  | message m =>
    obtain ⟨fields, hfields, rfl⟩ := declaration_message_eq_ok_iff.mp h
    intro u hu
    obtain ⟨d, hd, rfl⟩ := List.mem_map.mp hu
    obtain ⟨f, -, hf⟩ := (mem_iff_of_mapM hfields).mp hd
    obtain ⟨-, -, htype⟩ := field_eq_ok_iff.mp hf
    exact isUse_of_typeWithin htype

private theorem isLeaf_of_mem_endpoints {s : Schema.Service} {d : Doc.Service}
    (h : service ix s = .ok d)
    {e : Doc.Endpoint} (he : e ∈ d.endpoints) :
    e.request.isLeaf = true ∧ e.response.isLeaf = true := by
  obtain ⟨m, -, hm⟩ := (mem_endpoints_service h).mp he
  rcases endpoint?_eq_ok hm with ⟨-, hnone⟩ | ⟨-, e', he', hrequest, hresponse⟩
  · cases hnone
  · cases he'
    rw [hrequest, hresponse]
    exact ⟨isLeaf_messageUse m.input, isLeaf_messageUse m.output⟩

private theorem shaped_of_package {f : Schema.File} {p : Package} (h : package ix f = .ok p) :
    p.Shaped := by
  obtain ⟨-, -, -, hservices, htypes⟩ := package_eq_ok_iff.mp h
  apply Doc.Package.shaped_of_uses
  · intro key type hget
    obtain ⟨d, -, rfl, hd⟩ := (get?_typesOf htypes).mp hget
    exact ⟨isDeclaration_of_declaration hd, name?_of_declaration hd⟩
  · intro type htype
    obtain ⟨key, hget⟩ := KeyMap.mem_values_iff.mp htype
    obtain ⟨d, -, -, hd⟩ := (get?_typesOf htypes).mp hget
    exact isUse_of_declaration hd
  · intro t ht
    obtain ⟨e, he, ht⟩ := List.mem_flatMap.mp ht
    obtain ⟨d, hd, he⟩ := List.mem_flatMap.mp he
    obtain ⟨s, -, hs⟩ := (mem_iff_of_mapM hservices).mp hd
    obtain ⟨hrequest, hresponse⟩ := isLeaf_of_mem_endpoints hs he
    rcases List.mem_pair.mp ht with rfl | rfl
    · exact hrequest
    · exact hresponse

end Conversion

/-- Where every entry is a declaration, pruning can only miss a name. -/
theorem prune_error_of_shaped {ps : List Package} (h : ∀ p ∈ ps, p.Shaped) {e : ResolutionError}
    (herror : prune ps = .error e) : ∃ name, e = .unresolved name := by
  obtain ⟨-, -, name, -, hname⟩ := exists_of_resolveAll_eq_error (prune_eq_error_iff.mp herror)
  refine ⟨name, ?_⟩
  unfold Scope.resolve at hname
  split at hname
  · cases hname
    rfl
  · rename_i target htarget
    obtain ⟨hmem, hget, -⟩ := Scope.mem_of_find? htarget
    have hp := List.mem_of_getElem? (Scope.mem_ofPackages.mp hmem)
    rw [if_pos ((h _ hp).entry _ _ hget).1] at hname
    cases hname

namespace Schema

/-- The packages of a schema have their declarations under their own names and only there, with
leaves in arrays, requests and responses; so pruning them fails only for a name that is not
found. -/
theorem packages_shaped {s : Schema} {ps : List Package} (hs : s.packages = .ok ps) :
    (∀ p ∈ ps, p.Shaped) ∧ ∀ e, prune ps = .error e → ∃ name, e = .unresolved name := by
  have hshaped : ∀ p ∈ ps, p.Shaped := by
    intro p hp
    obtain ⟨f, -, hf⟩ := (mem_iff_of_mapM (packages_eq_ok_iff.mp hs).2).mp hp
    exact Conversion.shaped_of_package hf
  exact ⟨hshaped, fun e => prune_error_of_shaped hshaped⟩

private theorem packages_catalog :
    (catalog .message (some (.get "/orders"))).packages = .ok [catalogPackage] := by
  refine packages_eq_ok_iff.mpr ⟨rfl, ?_⟩
  rw [ordered_catalog, List.mapM_cons, List.mapM_nil, package_catalog]
  rfl

/-- Tags are an array of texts, and lines a map to a reference. -/
theorem packages_shaped_catalog :
    (catalog .message (some (.get "/orders"))).packages = .ok [catalogPackage] ∧
      catalogPackage.Shaped :=
  ⟨packages_catalog, (packages_shaped packages_catalog).1 _ List.mem_cons_self⟩

end Schema
end SchemaDocs
