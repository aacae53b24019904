import SchemaDocs.Conversion
import SchemaDocs.Proofs.Doc
import SchemaDocs.Proofs.Except

/-!
# What conversion writes

The types of a converted package are the documented declarations of its file under their own names,
and its references are the full names that the file uses, under the names by which those are
documented. Main statements: `get?_typesOf`, `mem_refs_package`.
-/

namespace SchemaDocs

open Doc (TypeDoc Package)
open Schema (Index Kind Declaration File)

namespace Schema

/-- A message that is shown as a basic type wherever it is used. -/
def IsBasic (fullName : String) : Prop := (Conversion.basicMessages.lookup fullName).isSome = true

instance (fullName : String) : Decidable (IsBasic fullName) :=
  inferInstanceAs (Decidable (_ = true))

/-- A field, or the key or value that a chain of map entries gives it, refers to a full name. -/
inductive Field.Uses (ix : Index) : Field → String → Prop
  | enum {f : Field} : f.isMap = false → f.kind = .enum → Uses ix f f.target
  | message {f : Field} :
    f.isMap = false → f.kind = .message → ¬ IsBasic f.target → Uses ix f f.target
  | key {f key value : Field} {m : Message} {rest : List Field} {target : String} :
    f.isMap = true → ix.message? f.target = some m → m.fields = key :: value :: rest →
      Uses ix key target → Uses ix f target
  | value {f key value : Field} {m : Message} {rest : List Field} {target : String} :
    f.isMap = true → ix.message? f.target = some m → m.fields = key :: value :: rest →
      Uses ix value target → Uses ix f target

/-- A file refers to a full name: in a field of a documented message, or as the request or response
of a method that is bound to HTTP. -/
inductive File.Uses (ix : Index) (f : File) : String → Prop
  | field {m : Message} {fd : Field} {target : String} :
    .message m ∈ f.documented → fd ∈ m.fields → fd.Uses ix target → Uses ix f target
  | input {s : Service} {m : Method} :
    s ∈ f.services → m ∈ s.methods → m.http.isSome = true → ¬ IsBasic m.input → Uses ix f m.input
  | output {s : Service} {m : Method} :
    s ∈ f.services → m ∈ s.methods → m.http.isSome = true → ¬ IsBasic m.output → Uses ix f m.output

namespace Field

variable {ix : Index} {f : Field} {target : String}

theorem uses_iff_of_not_map (hmap : f.isMap = false) :
    f.Uses ix target ↔
      (f.kind = .enum ∨ f.kind = .message ∧ ¬ IsBasic f.target) ∧ target = f.target := by
  constructor
  · intro h
    cases h with
    | enum _ hk => exact ⟨Or.inl hk, rfl⟩
    | message _ hk hb => exact ⟨Or.inr ⟨hk, hb⟩, rfl⟩
    | key hm | value hm => exact absurd hmap (by simp [hm])
  · intro h
    obtain ⟨hk | ⟨hk, hb⟩, rfl⟩ := h
    · exact .enum hmap hk
    · exact .message hmap hk hb

private theorem uses_iff_of_map {key value : Field} {m : Message} {rest : List Field}
    (hmap : f.isMap = true) (hm : ix.message? f.target = some m)
    (hfields : m.fields = key :: value :: rest) :
    f.Uses ix target ↔ key.Uses ix target ∨ value.Uses ix target := by
  constructor
  · intro h
    cases h with
    | enum hno | message hno => exact absurd hmap (by simp [hno])
    | key _ hm' hfields' h =>
      rw [hm] at hm'
      cases hm'
      rw [hfields] at hfields'
      cases hfields'
      exact Or.inl h
    | value _ hm' hfields' h =>
      rw [hm] at hm'
      cases hm'
      rw [hfields] at hfields'
      cases hfields'
      exact Or.inr h
  · intro h
    rcases h with h | h
    · exact .key hmap hm hfields h
    · exact .value hmap hm hfields h

end Field

end Schema

namespace Conversion

variable {ix : Index} {n : String}

private theorem mem_refs_messageUse {target : String} :
    n ∈ (messageUse ix target).refs ↔ ¬ Schema.IsBasic target ∧ n = ix.flatName target := by
  unfold messageUse Schema.IsBasic
  split
  · rename_i name hlookup
    simp [hlookup, TypeDoc.refs]
  · rename_i hlookup
    simp [hlookup, TypeDoc.refs]

private theorem mem_refs_elementType {f : Schema.Field} {type : TypeDoc} (hmap : f.isMap = false)
    (h : elementType ix f = .ok type) :
    n ∈ type.refs ↔ ∃ target, f.Uses ix target ∧ n = ix.flatName target := by
  have hempty (hk : scalarTitle? f.kind ≠ none) : ¬ ∃ target, f.Uses ix target ∧
      n = ix.flatName target := by
    intro hex
    obtain ⟨target, hu, -⟩ := hex
    rcases ((Schema.Field.uses_iff_of_not_map hmap).mp hu).1 with h | ⟨h, -⟩
    · exact hk (by rw [h]; rfl)
    · exact hk (by rw [h]; rfl)
  unfold elementType at h
  split at h
  · rename_i hk
    cases h
    simp [Schema.Field.uses_iff_of_not_map hmap, hk, TypeDoc.refs]
  · rename_i hk
    cases h
    simp [Schema.Field.uses_iff_of_not_map hmap, hk, mem_refs_messageUse]
  · split at h
    · rename_i name hname
      cases h
      refine iff_of_false ?_ (hempty (by simp [hname]))
      simp [TypeDoc.refs]
    · cases h

theorem typeWithin_of_not_map {depth : Nat} {f : Schema.Field} {type : TypeDoc}
    (hmap : f.isMap = false) :
    typeWithin ix depth f = .ok type ↔ ∃ element, elementType ix f = .ok element ∧
      type = if f.isRepeated then .array element else element := by
  unfold typeWithin
  rw [if_neg (by simp [hmap]), bind_eq_ok_iff]
  refine exists_congr fun element => and_congr_right fun _ => ?_
  rw [pure_eq_ok_iff, eq_comm]

theorem typeWithin_of_map {depth : Nat} {f : Schema.Field} {type : TypeDoc}
    (hmap : f.isMap = true) (h : typeWithin ix depth f = .ok type) :
    ∃ depth' m key value rest k v, depth = depth' + 1 ∧ ix.message? f.target = some m ∧
      m.fields = key :: value :: rest ∧ typeWithin ix depth' key = .ok k ∧
      typeWithin ix depth' value = .ok v ∧ type = .map k v := by
  unfold typeWithin at h
  rw [if_pos hmap] at h
  split at h
  · rename_i depth' _ _ _ key value rest _ _ _ hm
    simp only [bind_eq_ok_iff, pure_eq_ok_iff] at h
    obtain ⟨k, hk, v, hv, htype⟩ := h
    exact ⟨depth', _, key, value, rest, k, v, rfl, hm, rfl, hk, hv, htype.symm⟩
  · cases h

theorem typeWithin_map {depth : Nat} {f key value : Schema.Field} {m : Schema.Message}
    {rest : List Schema.Field} {k v : TypeDoc} (hmap : f.isMap = true)
    (hm : ix.message? f.target = some m) (hfields : m.fields = key :: value :: rest)
    (hk : typeWithin ix depth key = .ok k) (hv : typeWithin ix depth value = .ok v) :
    typeWithin ix (depth + 1) f = .ok (.map k v) := by
  obtain ⟨name, fullName, description, fields, messages, enums, isMapEntry⟩ := m
  cases hfields
  unfold typeWithin
  rw [if_pos hmap, hm]
  simp only [hk, hv]
  rfl

private theorem mem_refs_typeWithin {depth : Nat} {f : Schema.Field} {type : TypeDoc}
    (h : typeWithin ix depth f = .ok type) :
    n ∈ type.refs ↔ ∃ target, f.Uses ix target ∧ n = ix.flatName target := by
  induction depth using Nat.strongRecOn generalizing f type with
  | ind depth ih =>
    cases hmap : f.isMap with
    | false =>
      obtain ⟨element, helement, rfl⟩ := (typeWithin_of_not_map hmap).mp h
      rw [← mem_refs_elementType hmap helement]
      split
      · rw [TypeDoc.refs]
      · rfl
    | true =>
      obtain ⟨depth', m, key, value, rest, k, v, rfl, hm, hfields, hk, hv, rfl⟩ :=
        typeWithin_of_map hmap h
      rw [TypeDoc.refs, List.mem_append, ih depth' (Nat.lt_succ_self _) hk,
        ih depth' (Nat.lt_succ_self _) hv]
      simp only [Schema.Field.uses_iff_of_map hmap hm hfields, or_and_right, exists_or]

theorem field_eq_ok_iff {f : Schema.Field} {d : Doc.Field} :
    field ix f = .ok d ↔ d.name = f.wireName ∧
      d.description = Comment.shortFor f.name f.description ∧ typeOf ix f = .ok d.type := by
  simp only [field, bind_eq_ok_iff, pure_eq_ok_iff]
  obtain ⟨name, description, type⟩ := d
  constructor
  · intro h
    obtain ⟨t, ht, hd⟩ := h
    cases hd
    exact ⟨rfl, rfl, ht⟩
  · intro h
    obtain ⟨hname, hdescription, ht⟩ := h
    refine ⟨type, ht, ?_⟩
    rw [← hname, ← hdescription]
    rfl

theorem declaration_message_eq_ok_iff {m : Schema.Message} {type : TypeDoc} :
    declaration ix (.message m) = .ok type ↔ ∃ fields, m.fields.mapM (field ix) = .ok fields ∧
      type = .message m.name (Comment.longFor m.name m.description) fields := by
  simp only [declaration, bind_eq_ok_iff, pure_eq_ok_iff]
  simp only [eq_comm]

private theorem mem_refs_field {f : Schema.Field} {d : Doc.Field} (h : field ix f = .ok d) :
    n ∈ d.type.refs ↔ ∃ target, f.Uses ix target ∧ n = ix.flatName target := by
  obtain ⟨-, -, htype⟩ := field_eq_ok_iff.mp h
  exact mem_refs_typeWithin htype

theorem exists_typeOf {m : Schema.Message} {f : Schema.Field} {type : TypeDoc}
    (h : declaration ix (.message m) = .ok type) (hf : f ∈ m.fields) :
    ∃ t, typeOf ix f = .ok t := by
  obtain ⟨fields, hfields, -⟩ := declaration_message_eq_ok_iff.mp h
  obtain ⟨i, hi⟩ := List.getElem?_of_mem hf
  obtain ⟨d, -, hd⟩ := getElem?_of_mapM hfields hi
  obtain ⟨-, -, ht⟩ := field_eq_ok_iff.mp hd
  exact ⟨d.type, ht⟩

private theorem mem_refs_declaration {d : Declaration} {type : TypeDoc}
    (h : declaration ix d = .ok type) :
    n ∈ type.refs ↔ ∃ m f target, d = .message m ∧ f ∈ m.fields ∧ f.Uses ix target ∧
      n = ix.flatName target := by
  cases d with
  | enum e =>
    cases h
    simp [enum, TypeDoc.refs]
  | message m =>
    obtain ⟨fields, hfields, rfl⟩ := declaration_message_eq_ok_iff.mp h
    rw [TypeDoc.refs, TypeDoc.fieldRefs_eq, List.mem_flatMap]
    constructor
    · intro hn
      obtain ⟨d, hd, hn⟩ := hn
      obtain ⟨f, hf, hfd⟩ := (mem_iff_of_mapM hfields).mp hd
      obtain ⟨target, hu, hn⟩ := (mem_refs_field hfd).mp hn
      exact ⟨m, f, target, rfl, hf, hu, hn⟩
    · intro hn
      obtain ⟨m', f, target, hm, hf, hu, hn⟩ := hn
      cases hm
      obtain ⟨i, hi⟩ := List.getElem?_of_mem hf
      obtain ⟨d, hd, hfd⟩ := getElem?_of_mapM hfields hi
      exact ⟨d, List.mem_of_getElem? hd, (mem_refs_field hfd).mpr ⟨target, hu, hn⟩⟩

theorem isDeclaration_of_declaration {d : Declaration} {type : TypeDoc}
    (h : declaration ix d = .ok type) : type.isDeclaration = true := by
  cases d with
  | enum e =>
    cases h
    rfl
  | message m =>
    obtain ⟨fields, -, rfl⟩ := declaration_message_eq_ok_iff.mp h
    rfl

/-! ## Types of a package -/

theorem addType_eq_ok_iff {package name : String} {types types' : KeyMap TypeDoc} {type : TypeDoc} :
    addType package types name type = .ok types' ↔
      types.get? name = none ∧ types' = types.insert name type := by
  unfold addType
  split
  · rename_i hc
    obtain ⟨value, hv⟩ := KeyMap.contains_iff.mp hc
    simp [hv]
  · rename_i hc
    rw [KeyMap.contains, Option.not_isSome_iff_eq_none] at hc
    simp [hc, eq_comm]

private theorem get?_addTypes {package key : String} {type : TypeDoc}
    {types types' : KeyMap TypeDoc} {ds : List Declaration}
    (h : ds.foldlM (fun types d => do addType package types d.name (← declaration ix d)) types =
      .ok types') :
    types'.get? key = some type ↔
      types.get? key = some type ∨ ∃ d ∈ ds, d.name = key ∧ declaration ix d = .ok type := by
  induction ds generalizing types with
  | nil =>
    rw [List.foldlM_nil, pure_eq_ok_iff] at h
    simp [h]
  | cons d ds ih =>
    simp only [List.foldlM_cons, bind_eq_ok_iff, addType_eq_ok_iff] at h
    obtain ⟨_, ⟨new, hnew, hfree, rfl⟩, h⟩ := h
    rw [ih h, KeyMap.get?_insert]
    by_cases hkey : key = d.name
    · subst hkey
      simp [hfree, hnew]
    · simp [hkey, Ne.symm hkey]

theorem get?_typesOf {package key : String} {type : TypeDoc} {types : KeyMap TypeDoc}
    {ds : List Declaration} (h : typesOf ix package ds = .ok types) :
    types.get? key = some type ↔ ∃ d ∈ ds, d.name = key ∧ declaration ix d = .ok type := by
  rw [get?_addTypes h]
  simp

theorem exists_declaration_of_typesOf {package : String} {types : KeyMap TypeDoc}
    {ds : List Declaration} (h : typesOf ix package ds = .ok types) {d : Declaration}
    (hd : d ∈ ds) : ∃ type, declaration ix d = .ok type := by
  unfold typesOf at h
  generalize KeyMap.empty = start at h
  induction ds generalizing start with
  | nil => simp at hd
  | cons e ds ih =>
    simp only [List.foldlM_cons, bind_eq_ok_iff] at h
    obtain ⟨next, ⟨type, htype, -⟩, h⟩ := h
    rcases List.mem_cons.mp hd with rfl | hd
    · exact ⟨type, htype⟩
    · exact ih hd next h

/-! ## Endpoints of a package -/

/-- A method becomes an endpoint when it is bound to HTTP. -/
theorem endpoint?_eq_ok {service : String} {m : Schema.Method} {o : Option Doc.Endpoint}
    (h : endpoint? ix service m = .ok o) :
    (m.http.isSome = false ∧ o = none) ∨ (m.http.isSome = true ∧ ∃ e, o = some e ∧
      e.request = messageUse ix m.input ∧ e.response = messageUse ix m.output) := by
  unfold endpoint? at h
  split at h
  · rename_i hm
    cases h
    exact Or.inl ⟨by simp [hm], rfl⟩
  · rename_i binding hm
    refine Or.inr ⟨by simp [hm], ?_⟩
    split at h
    · split at h <;>
      · simp only [bind_eq_ok_iff, pure_eq_ok_iff] at h
        obtain ⟨_, -, rfl⟩ := h
        exact ⟨_, rfl, rfl, rfl⟩
    · cases h

theorem service_eq_ok_iff {s : Schema.Service} {d : Doc.Service} :
    service ix s = .ok d ↔ ∃ endpoints, s.methods.mapM (endpoint? ix s.name) = .ok endpoints ∧
      d = ⟨s.name, Comment.longFor s.name s.description, endpoints.filterMap id⟩ := by
  simp only [service, bind_eq_ok_iff, pure_eq_ok_iff]
  simp only [eq_comm]

theorem mem_endpoints_service {s : Schema.Service} {d : Doc.Service} (h : service ix s = .ok d)
    {e : Doc.Endpoint} :
    e ∈ d.endpoints ↔ ∃ m ∈ s.methods, endpoint? ix s.name m = .ok (some e) := by
  obtain ⟨endpoints, hendpoints, rfl⟩ := service_eq_ok_iff.mp h
  rw [List.mem_filterMap]
  simp only [id_eq, exists_eq_right]
  exact mem_iff_of_mapM hendpoints

theorem exists_endpoint_of_service {s : Schema.Service} {d : Doc.Service}
    (h : service ix s = .ok d) {m : Schema.Method} (hm : m ∈ s.methods)
    (hhttp : m.http.isSome = true) :
    ∃ e ∈ d.endpoints, endpoint? ix s.name m = .ok (some e) ∧
      e.request = messageUse ix m.input ∧ e.response = messageUse ix m.output := by
  obtain ⟨endpoints, hendpoints, rfl⟩ := service_eq_ok_iff.mp h
  obtain ⟨i, hi⟩ := List.getElem?_of_mem hm
  obtain ⟨o, ho, hmo⟩ := getElem?_of_mapM hendpoints hi
  rcases endpoint?_eq_ok hmo with ⟨hno, -⟩ | ⟨-, e, rfl, hrequest, hresponse⟩
  · rw [hhttp] at hno
    cases hno
  · refine ⟨e, ?_, hmo, hrequest, hresponse⟩
    exact List.mem_filterMap.mpr ⟨some e, List.mem_of_getElem? ho, rfl⟩

private theorem mem_refs_service {s : Schema.Service} {d : Doc.Service} (h : service ix s = .ok d) :
    (∃ e ∈ d.endpoints, n ∈ e.request.refs ++ e.response.refs) ↔
      ∃ m ∈ s.methods, m.http.isSome = true ∧
        (¬ Schema.IsBasic m.input ∧ n = ix.flatName m.input ∨
          ¬ Schema.IsBasic m.output ∧ n = ix.flatName m.output) := by
  constructor
  · intro hn
    obtain ⟨e, he, hn⟩ := hn
    obtain ⟨m, hm, hme⟩ := (mem_endpoints_service h).mp he
    rcases endpoint?_eq_ok hme with ⟨-, hnone⟩ | ⟨hhttp, e', he', hrequest, hresponse⟩
    · cases hnone
    · cases he'
      rw [List.mem_append, hrequest, hresponse, mem_refs_messageUse, mem_refs_messageUse] at hn
      exact ⟨m, hm, hhttp, hn⟩
  · intro hn
    obtain ⟨m, hm, hhttp, hn⟩ := hn
    obtain ⟨e, he, -, hrequest, hresponse⟩ := exists_endpoint_of_service h hm hhttp
    refine ⟨e, he, ?_⟩
    rw [List.mem_append, hrequest, hresponse, mem_refs_messageUse, mem_refs_messageUse]
    exact hn

/-! ## References of a package -/

theorem package_eq_ok_iff {f : File} {p : Package} :
    package ix f = .ok p ↔ p.name = f.title ∧ p.id = f.package ∧
      p.description = Comment.plain f.description ∧
      f.services.mapM (service ix) = .ok p.services ∧
      typesOf ix f.package f.documented = .ok p.types := by
  simp only [package, bind_eq_ok_iff, pure_eq_ok_iff]
  constructor
  · intro h
    obtain ⟨types, htypes, services, hservices, rfl⟩ := h
    exact ⟨rfl, rfl, rfl, hservices, htypes⟩
  · intro h
    obtain ⟨hname, hid, hdescription, hservices, htypes⟩ := h
    refine ⟨p.types, htypes, p.services, hservices, ?_⟩
    rw [← hname, ← hid, ← hdescription]

/-- A package refers to what its file uses, by the documented names. -/
theorem mem_refs_package {f : File} {p : Package} (h : package ix f = .ok p) :
    n ∈ p.refs ↔ ∃ target, f.Uses ix target ∧ n = ix.flatName target := by
  obtain ⟨-, -, -, hservices, htypes⟩ := package_eq_ok_iff.mp h
  rw [Package.mem_refs_iff]
  constructor
  · intro hn
    rcases hn with ⟨key, type, hget, hn⟩ | ⟨e, he, hn⟩
    · obtain ⟨d, hd, -, hdtype⟩ := (get?_typesOf htypes).mp hget
      obtain ⟨m, fd, target, rfl, hfd, hu, hn⟩ := (mem_refs_declaration hdtype).mp hn
      exact ⟨target, .field hd hfd hu, hn⟩
    · obtain ⟨d, hd, he⟩ := List.mem_flatMap.mp he
      obtain ⟨s, hs, hsd⟩ := (mem_iff_of_mapM hservices).mp hd
      obtain ⟨m, hm, hhttp, hn⟩ := (mem_refs_service hsd).mp ⟨e, he, hn⟩
      rcases hn with ⟨hb, hn⟩ | ⟨hb, hn⟩
      · exact ⟨m.input, .input hs hm hhttp hb, hn⟩
      · exact ⟨m.output, .output hs hm hhttp hb, hn⟩
  · intro hn
    obtain ⟨target, hu, hn⟩ := hn
    have hservice : ∀ s ∈ f.services, ∀ m ∈ s.methods, m.http.isSome = true →
        (¬ Schema.IsBasic m.input ∧ n = ix.flatName m.input ∨
          ¬ Schema.IsBasic m.output ∧ n = ix.flatName m.output) →
        ∃ e ∈ p.endpoints, n ∈ e.request.refs ++ e.response.refs := by
      intro s hs m hm hhttp hn
      obtain ⟨i, hi⟩ := List.getElem?_of_mem hs
      obtain ⟨d, hd, hsd⟩ := getElem?_of_mapM hservices hi
      obtain ⟨e, he, hn⟩ := (mem_refs_service hsd).mpr ⟨m, hm, hhttp, hn⟩
      exact ⟨e, List.mem_flatMap.mpr ⟨d, List.mem_of_getElem? hd, he⟩, hn⟩
    cases hu with
    | field hm hfd hu =>
      obtain ⟨type, htype⟩ := exists_declaration_of_typesOf htypes hm
      have hget := (get?_typesOf htypes).mpr ⟨_, hm, rfl, htype⟩
      exact Or.inl ⟨_, type, hget, (mem_refs_declaration htype).mpr ⟨_, _, _, rfl, hfd, hu, hn⟩⟩
    | input hs hm hhttp hb => exact Or.inr (hservice _ hs _ hm hhttp (Or.inl ⟨hb, hn⟩))
    | output hs hm hhttp hb => exact Or.inr (hservice _ hs _ hm hhttp (Or.inr ⟨hb, hn⟩))

end Conversion
end SchemaDocs
