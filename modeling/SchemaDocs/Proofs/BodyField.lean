import SchemaDocs.Proofs.Registration
import SchemaDocs.Proofs.Survival

/-!
# The field that is sent as the body

A binding names the field by its declared name and in the declared request. A reader finds the
endpoint's reference, resolves it in the pruned list and looks for a field with a wire name there.
Both lead to the same message, and the field has its wire name from the same declaration. Main
statement: `bodyField_documented`.
-/

namespace SchemaDocs

open Doc (TypeDoc Package Endpoint)
open Schema (Index File Message Method Binding IsBasic)

/-- The request of an endpoint leads to a message, and one of its fields is sent as the body. -/
structure SendsField (ps : List Package) (e : Endpoint) (t : Target) : Prop where
  request : ∃ name, e.request = .ref name ∧ (Scope.ofPackages ps).resolve name = .ok t
  body : ∃ name description fields, t.type = .message name description fields ∧
    ∃ field ∈ fields, e.bodyField = some field.name

namespace Conversion

variable {ix : Index} {service : String} {m : Method} {e : Endpoint}

private theorem messageUse_of_not_basic {fullName : String} (h : ¬ IsBasic fullName) :
    messageUse ix fullName = .ref (ix.flatName fullName) := by
  unfold messageUse
  split
  · rename_i name hlookup
    exact absurd (by simp [IsBasic, hlookup]) h
  · rfl

private theorem bodyName_eq_ok {input body method name : String}
    (h : bodyName ix input body method = .ok name) :
    ∃ request field, ix.message? input = some request ∧ field ∈ request.fields ∧
      field.name = body ∧ field.wireName = name := by
  unfold bodyName at h
  split at h
  · cases h
  · rename_i request hrequest
    split at h
    · cases h
    · rename_i field hfield
      cases h
      have hname := List.find?_some hfield
      exact ⟨request, field, hrequest, List.mem_of_find?_eq_some hfield, by simpa using hname, rfl⟩

private theorem bodyField_of_endpoint? {binding : Binding} {body : String}
    (hhttp : m.http = some binding)
    (hbody : binding.body = some body) (hempty : body ≠ "") (hwhole : body ≠ "*")
    (h : endpoint? ix service m = .ok (some e)) :
    ∃ name, bodyName ix m.input body (service ++ "." ++ m.name) = .ok name ∧
      e.bodyField = some name := by
  rw [endpoint?, hhttp] at h
  dsimp only at h
  split at h
  · rw [hbody] at h
    split at h
    · rename_i hnone
      cases hnone
    · rename_i hsome
      exact absurd (Option.some.inj hsome) hempty
    · rename_i hsome
      exact absurd (Option.some.inj hsome) hwhole
    · rename_i hsome
      cases hsome
      simp only [← bind_pure_comp, bind_eq_ok_iff, pure_eq_ok_iff] at h
      obtain ⟨_, ⟨name, hname, rfl⟩, he⟩ := h
      exact ⟨name, hname, (congrArg Endpoint.bodyField (Option.some.inj he)).symm⟩
  · cases h

end Conversion

namespace Schema

variable {s : Schema} {ps qs : List Package} {used : NameSet}

private theorem exists_field_of_declaration {ix : Index} {msg : Message} {type : TypeDoc}
    {fd : Field}
    (h : Conversion.declaration ix (.message msg) = .ok type) (hfd : fd ∈ msg.fields) :
    ∃ name description fields, type = .message name description fields ∧
      ∃ field ∈ fields, field.name = fd.wireName := by
  obtain ⟨fields, hfields, rfl⟩ := Conversion.declaration_message_eq_ok_iff.mp h
  obtain ⟨i, hi⟩ := List.getElem?_of_mem hfd
  obtain ⟨field, hfield, hshown⟩ := getElem?_of_mapM hfields hi
  obtain ⟨hname, -, -⟩ := Conversion.field_eq_ok_iff.mp hshown
  exact ⟨_, _, fields, rfl, field, List.mem_of_getElem? hfield, hname⟩

private theorem exists_endpoint_of_method (hs : s.packages = .ok ps) {i j : Nat} {f : File}
    {service : Service} {m : Method} (hf : s.ordered[i]? = some f)
    (hservice : f.services[j]? = some service) (hm : m ∈ service.methods)
    (hhttp : m.http.isSome = true) :
    ∃ p d e, ps[i]? = some p ∧ p.services[j]? = some d ∧ e ∈ d.endpoints ∧
      Conversion.endpoint? s.index service.name m = .ok (some e) ∧
      e.request = Conversion.messageUse s.index m.input := by
  obtain ⟨p, hp, hfp⟩ := getElem?_of_mapM (packages_eq_ok_iff.mp hs).2 hf
  obtain ⟨-, -, -, hservices, -⟩ := Conversion.package_eq_ok_iff.mp hfp
  obtain ⟨d, hd, hsd⟩ := getElem?_of_mapM hservices hservice
  obtain ⟨e, he, hme, hrequest, -⟩ := Conversion.exists_endpoint_of_service hsd hm hhttp
  exact ⟨p, d, e, hp, hd, he, hme, hrequest⟩

/-- In the pruned list the documented name of a declaration leads to its documentation, if the name
is used. -/
theorem resolve_used_declaration (hs : s.packages = .ok ps)
    (hdistinct : (s.declared.map (·.declaration.fullName)).Nodup)
    (hdot : ∀ x ∈ s.declared, '.' ∉ x.declaration.name.toList) (h : prune ps = .ok (qs, used))
    {g : File} {d : Declaration} (hg : g ∈ s.files) (hd : g.Declares d)
    (hu : used.contains (s.index.flatName d.fullName) = true) :
    ∃ t, (Scope.ofPackages qs).resolve (s.index.flatName d.fullName) = .ok t ∧
      Conversion.declaration s.index d = .ok t.type := by
  obtain ⟨k, hk⟩ := List.getElem?_of_mem (mem_ordered.mpr hg)
  have hmem : d ∈ g.documented := File.mem_documented_iff.mpr hd
  have hflat : s.index.flatName d.fullName = Name.qualify g.package d.name :=
    flatName_of_mem hdistinct (mem_declared hg (g.sublist_documented.subset hmem))
  obtain ⟨p, type, -, -, htype, hresolve⟩ := resolve_qualify hs hdot hk hmem
  rw [← hflat] at hresolve
  obtain ⟨t, ht, hpruned⟩ := Scope.resolve_pruned h hu
  rw [hresolve] at ht
  cases ht
  exact ⟨_, hpruned, htype⟩

/-- Where full names are distinct and names have no dots, and conversion and pruning succeed, a
method that sends a field of a documented message is documented so: its endpoint stays, the request
leads to that message in the pruned list, and the body field is a field of it. -/
theorem bodyField_documented (hs : s.packages = .ok ps)
    (hdistinct : (s.declared.map (·.declaration.fullName)).Nodup)
    (hdot : ∀ x ∈ s.declared, '.' ∉ x.declaration.name.toList) (h : prune ps = .ok (qs, used))
    {i j : Nat} {f : File} {service : Service} {m : Method} {binding : Binding} {body : String}
    (hf : s.ordered[i]? = some f) (hservice : f.services[j]? = some service)
    (hm : m ∈ service.methods) (hhttp : m.http = some binding) (hbody : binding.body = some body)
    (hempty : body ≠ "") (hwhole : body ≠ "*") (hbasic : ¬ IsBasic m.input) {g : File}
    {msg : Message} (hg : g ∈ s.files) (hmsg : g.Declares (.message msg))
    (hinput : msg.fullName = m.input) :
    ∃ q d e t, qs[i]? = some q ∧ q.services[j]? = some d ∧ e ∈ d.endpoints ∧
      Conversion.endpoint? s.index service.name m = .ok (some e) ∧ SendsField qs e t ∧
      Conversion.declaration s.index (.message msg) = .ok t.type ∧
      ∃ fd ∈ msg.fields, fd.name = body ∧ e.bodyField = some fd.wireName := by
  obtain ⟨p, d, e, hp, hd, he, hme, hrequest⟩ :=
    exists_endpoint_of_method hs hf hservice hm (Option.isSome_of_mem hhttp)
  rw [Conversion.messageUse_of_not_basic hbasic, ← hinput] at hrequest
  obtain ⟨-, hreach, hqs⟩ := prune_eq_ok_iff.mp h
  have hq : qs[i]? = some (p.restrict used) := by rw [hqs, List.getElem?_map, hp, Option.map_some]
  have hu : used.contains (s.index.flatName msg.fullName) = true := by
    have hendpoint : e ∈ p.endpoints := List.mem_flatMap.mpr ⟨d, List.mem_of_getElem? hd, he⟩
    refine (closed_reachable hreach).roots p (List.mem_of_getElem? hp) e hendpoint _ ?_
    rw [hrequest, TypeDoc.refs]
    exact List.mem_append_left _ List.mem_cons_self
  obtain ⟨t, ht, hshown⟩ := resolve_used_declaration hs hdistinct hdot h hg hmsg hu
  obtain ⟨name, hname, hfield⟩ := Conversion.bodyField_of_endpoint? hhttp hbody hempty hwhole hme
  obtain ⟨request, fd, hindex, hfd, hfdname, rfl⟩ := Conversion.bodyName_eq_ok hname
  have hdeclared := mem_declared hg (g.sublist_documented.subset (File.mem_documented_iff.mpr hmsg))
  rw [← hinput, message?_of_mem hdistinct hdeclared] at hindex
  cases hindex
  obtain ⟨title, description, fields, htype, field, hmem, hwire⟩ :=
    exists_field_of_declaration hshown hfd
  have hsends : SendsField qs e t :=
    ⟨⟨_, hrequest, ht⟩, title, description, fields, htype, field, hmem, hwire ▸ hfield⟩
  exact ⟨_, d, e, t, hq, hd, he, hme, hsends, hshown, fd, hfd, hfdname, hfield⟩

/-- Orders with drafts inside, and a method that takes the line items of a draft. -/
def draftFile : File :=
  { File.holding "shop.proto" "shop"
      { Message.plain "Order" "shop.Order" with
        messages := [{ Message.plain "Draft" "shop.Order.Draft" with
          fields := [⟨"line_items", none, "", .string, .repeated, none, false⟩] }] } with
    services := [⟨"Orders", "", [⟨"Create", "", "shop.Order.Draft", "google.protobuf.Empty", false,
      false, some ⟨some (.post "/orders"), some "line_items"⟩⟩]⟩] }

def draftPackages : List Package :=
  [{ name := "shop", id := "shop", description := "",
     services := [⟨"Orders", "", [⟨"Create", "", "POST", "/orders", some "lineItems",
       .ref "shop.Draft", .basic "Empty" "", false, false⟩]⟩],
     types := KeyMap.ofList
      [("Draft", .message "Draft" "" [.mk "lineItems" "" (.array (.basic "String" ""))]),
        ("Order", .message "Order" "" [])] }]

private theorem packages_draftFile : Schema.packages ⟨[draftFile]⟩ = .ok draftPackages := by
  rw [packages_eq_ok_iff, ordered, List.mergeSort_singleton]
  exact ⟨rfl, by cbv⟩

/-- The draft stands inside the order and loses that name, the field gets its wire name, and the
order is dropped; the draft is still what the request leads to. -/
theorem bodyField_documented_draftFile :
    ∃ qs used e t, prune draftPackages = .ok (qs, used) ∧ SendsField qs e t ∧
      e.bodyField = some "lineItems" := by
  obtain ⟨⟨qs, used⟩, h⟩ : ∃ r, prune draftPackages = .ok r := exists_prune_iff.mpr (by cbv)
  have hdraft : draftFile.Declares (.message draftFile.messages[0].messages[0]) :=
    .message List.mem_cons_self (.inner rfl List.mem_cons_self (.self rfl))
  obtain ⟨_, _, e, t, -, -, -, -, hsends, -, fd, hfd, -, hfield⟩ :=
    @bodyField_documented ⟨[draftFile]⟩ _ _ _ packages_draftFile (by decide) (by decide) h 0 0
      draftFile _ _ _ _ (congrArg (·[0]?) (List.mergeSort_singleton _)) rfl List.mem_cons_self rfl
      rfl (by decide) (by decide) (by decide) _ _ List.mem_cons_self hdraft rfl
  refine ⟨qs, used, e, t, h, hsends, ?_⟩
  rw [hfield, List.mem_singleton.mp hfd]
  rfl

end Schema
end SchemaDocs
