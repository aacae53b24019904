import SchemaDocs.Proofs.Registration

/-!
# Schemas that can be documented

Conversion checks the fields of the documented messages and the methods of the services, file by
file in the order of names, and reports the first that does not pass; what no map field leads to
inside an entry message, and methods without a binding, are never looked at. Main statement:
`packages_documentable`.
-/

namespace SchemaDocs

open Schema (Index File)

namespace Schema

/-- What conversion looks at: the fields of messages, and the methods of services. -/
inductive Check where
  | field (f : Field)
  | method (service : String) (m : Method)

namespace Check

def Passes (ix : Index) : Check → Prop
  | field f => f.Classifiable ix
  | method _ m => m.Bindable ix

/-- The first reason why what is checked has no documentation. -/
def Fault (ix : Index) : Check → ConversionError → Prop
  | field f => f.Fault ix
  | method service m => m.Fault ix service

private theorem passes_iff_forall_not_fault {ix : Index} (h : ix.Acyclic) {c : Check} :
    c.Passes ix ↔ ∀ e, ¬ c.Fault ix e := by
  cases c with
  | field f => exact Field.classifiable_iff_forall_not_fault (h.chainsWithin f)
  | method service m => exact Method.bindable_iff_forall_not_fault

end Check

/-- The checks of a file: the fields of its messages, an outer message before those inside it, and
then its methods. -/
def File.checks (f : File) : List Check :=
  (f.documented.flatMap Declaration.fields).map .field ++
    f.services.flatMap fun service => service.methods.map (.method service.name)

def checks (s : Schema) : List Check := s.ordered.flatMap File.checks

private theorem Declaration.mem_fields_iff {d : Declaration} {field : Field} :
    field ∈ d.fields ↔ ∃ m, d = .message m ∧ field ∈ m.fields := by
  cases d with
  | message m => simp [fields]
  | enum e => simp [fields]

private theorem mem_checks_iff {s : Schema} {c : Check} : c ∈ s.checks ↔ ∃ f ∈ s.files,
    (∃ m, f.Declares (.message m) ∧ ∃ field ∈ m.fields, .field field = c) ∨
      ∃ service ∈ f.services, ∃ m ∈ service.methods, .method service.name m = c := by
  simp only [checks, List.mem_flatMap, mem_ordered, File.checks, List.mem_append, List.mem_map,
    Declaration.mem_fields_iff, File.mem_documented_iff]
  refine exists_congr fun f => and_congr_right fun _ => or_congr_left ?_
  constructor
  · intro h
    obtain ⟨field, ⟨_, hd, m, rfl, hfield⟩, hc⟩ := h
    exact ⟨m, hd, field, hfield, hc⟩
  · intro h
    obtain ⟨m, hd, field, hfield, hc⟩ := h
    exact ⟨field, ⟨_, hd, m, rfl, hfield⟩, hc⟩

/-- Files in the order of their names, those of one name in the order they had. -/
structure InNameOrder (ordered files : List File) : Prop where
  perm : ordered.Perm files
  sorted : ordered.Pairwise fun f g => f.name ≤ g.name
  stable : ∀ name, ordered.filter (·.name = name) = files.filter (·.name = name)

theorem inNameOrder_ordered (s : Schema) : InNameOrder s.ordered s.files := by
  have htrans (f g h : File) : (f.name ≤ g.name : Bool) → (g.name ≤ h.name : Bool) →
      (f.name ≤ h.name : Bool) := by
    simpa using String.le_trans
  have htotal (f g : File) : ((f.name ≤ g.name : Bool) || (g.name ≤ f.name : Bool)) = true := by
    simp [String.le_total f.name g.name]
  have hperm : s.ordered.Perm s.files := List.mergeSort_perm _ _
  constructor
  case perm => exact hperm
  case sorted => simpa [ordered] using List.pairwise_mergeSort htrans htotal s.files
  case stable =>
    intro name
    refine filter_mergeSort htrans htotal (fun f g hf hg => ?_) s.files
    have hfg : f.name = g.name := (of_decide_eq_true hf).trans (of_decide_eq_true hg).symm
    simp [hfg]

end Schema

namespace Conversion

variable {ix : Index} {e : ConversionError}

private theorem package_eq_error_iff_firstFault (h : ix.Acyclic) {f : File}
    (hnames : (f.documented.map (·.name)).Nodup) :
    Conversion.package ix f = .error e ↔ FirstFault (Schema.Check.Fault ix) f.checks e := by
  have hfields (e' : ConversionError) : typesOf ix f.package f.documented = .error e' ↔
      FirstFault (Schema.Check.Fault ix)
        ((f.documented.flatMap Schema.Declaration.fields).map .field) e' := by
    rw [typesOf_eq_error_iff hnames, firstFault_map, firstFault_flatMap]
    refine firstFault_congr fun d _ e' => ?_
    rw [declaration_eq_error_iff]
    exact firstFault_congr fun field _ e' => typeOf_eq_error_iff h
  have hmethods : f.services.mapM (service ix) = .error e ↔ FirstFault (Schema.Check.Fault ix)
      (f.services.flatMap fun service => service.methods.map (.method service.name)) e := by
    rw [mapM_eq_error_iff, firstFault_flatMap]
    refine firstFault_congr fun service _ e' => ?_
    rw [service_eq_error_iff, firstFault_map]
    rfl
  rw [package_eq_error_iff, exists_ok_iff, Schema.File.checks, firstFault_append, hfields, hmethods]
  simp only [ne_eq, hfields, forall_not_firstFault_iff]

end Conversion

namespace Schema

variable {s : Schema} {ix : Index} {e : ConversionError}

private theorem packages_of_index? (h : s.index? = .ok ix) :
    s.packages = s.ordered.mapM (Conversion.package ix) := by
  rw [packages, h]
  rfl

private theorem packages_eq_error_iff (h : s.index? = .ok ix) (hacyclic : ix.Acyclic) :
    s.packages = .error e ↔ FirstFault (Check.Fault ix) s.checks e := by
  obtain ⟨hclash, -⟩ := index?_eq_ok_iff.mp h
  rw [packages_of_index? h, mapM_eq_error_iff, checks, firstFault_flatMap]
  refine firstFault_congr fun f hf e' => ?_
  exact Conversion.package_eq_error_iff_firstFault hacyclic
    (nodup_names_documented hclash (mem_ordered.mp hf))

private theorem exists_packages_iff (h : s.index? = .ok ix) (hacyclic : ix.Acyclic) :
    (∃ ps, s.packages = .ok ps) ↔ ∀ c ∈ s.checks, c.Passes ix := by
  simp only [exists_ok_iff, ne_eq, packages_eq_error_iff h hacyclic, forall_not_firstFault_iff,
    Check.passes_iff_forall_not_fault hacyclic]

/-- Where no chain of map fields is a cycle, an indexed schema is converted if and only if every
field of a documented message has documentation and every binding does; and otherwise the error is
that of the first check that does not pass, with files in the order of their names. -/
theorem packages_documentable (h : s.index? = .ok ix) (hacyclic : ix.Acyclic) :
    ((∃ ps, s.packages = .ok ps) ↔
      (∀ f ∈ s.files, ∀ m, f.Declares (.message m) → ∀ field ∈ m.fields, field.Classifiable ix) ∧
        ∀ f ∈ s.files, ∀ service ∈ f.services, ∀ m ∈ service.methods, m.Bindable ix) ∧
      (∀ e, s.packages = .error e ↔ ∃ before c after, s.checks = before ++ c :: after ∧
        (∀ b ∈ before, b.Passes ix) ∧ c.Fault ix e) ∧
      InNameOrder s.ordered s.files := by
  refine ⟨?_, fun e => ?_, inNameOrder_ordered s⟩
  · rw [exists_packages_iff h hacyclic]
    constructor
    · intro hall
      refine ⟨fun f hf m hm field hfield => ?_, fun f hf service hservice m hm => ?_⟩
      · exact hall _ (mem_checks_iff.mpr ⟨f, hf, .inl ⟨m, hm, field, hfield, rfl⟩⟩)
      · exact hall _ (mem_checks_iff.mpr ⟨f, hf, .inr ⟨service, hservice, m, hm, rfl⟩⟩)
    · intro hall c hc
      obtain ⟨hfields, hmethods⟩ := hall
      obtain ⟨f, hf, ⟨m, hm, field, hfield, rfl⟩ | ⟨service, hservice, m, hm, rfl⟩⟩ :=
        mem_checks_iff.mp hc
      · exact hfields f hf m hm field hfield
      · exact hmethods f hf service hservice m hm
  · rw [packages_eq_error_iff h hacyclic, FirstFault]
    simp only [Check.passes_iff_forall_not_fault hacyclic]

private theorem declared_catalog (value : Kind) (route : Option Route) :
    (catalog value route).index.declared =
      ([.message (catalogMessage value), .enum ⟨"State", "shop.Order.State", "",
        [⟨"OPEN", 0, ""⟩, ⟨"PAID", 1, ""⟩]⟩, .message (linesEntry value),
        .enum ⟨"Hidden", "shop.Order.LinesEntry.Hidden", "", []⟩,
        .message (.plain "Line" "shop.Order.Line")] : List Declaration).map (⟨"shop", ·⟩) :=
  rfl

private theorem entry?_catalog {name : String} {key value : Field} {kind : Kind}
    {route : Option Route}
    (h : (catalog kind route).index.entry? name = some (key, value)) :
    name = "shop.Order.LinesEntry" ∧ key.isMap = false ∧ value.isMap = false ∨
      name = "shop.Order" ∧ key.isMap = false ∧ value.target = "shop.Order.LinesEntry" := by
  obtain ⟨m, rest, hm, hfields⟩ := Index.entry?_eq_some_iff.mp h
  obtain ⟨package, hmem, rfl⟩ := Index.mem_of_message? hm
  simp only [declared_catalog, List.mem_map, List.mem_cons, List.not_mem_nil, or_false] at hmem
  obtain ⟨d, rfl | rfl | rfl | rfl | rfl, hd⟩ := hmem
  · cases hd
    cases hfields
    exact .inr ⟨rfl, rfl, rfl⟩
  · cases hd
  · cases hd
    cases hfields
    exact .inl ⟨rfl, rfl, rfl⟩
  · cases hd
  · cases hd
    cases hfields

/-- How many entries a chain of the catalog can still come to: orders are no entry, but would lead
to the map if some field took them for one. -/
def catalogHeight (f : Field) : Nat :=
  if f.isMap then if f.target = "shop.Order" then 2 else 1 else 0

private theorem acyclic_catalog (value : Kind) (route : Option Route) :
    (catalog value route).index.Acyclic := by
  refine Index.acyclic_of_height catalogHeight fun f g hfg => ?_
  obtain ⟨hmap, key, value, hentry, hg⟩ := hfg
  rcases entry?_catalog hentry with ⟨htarget, hkey, hvalue⟩ | ⟨htarget, hkey, hvalue⟩
  · rcases hg with rfl | rfl
    · simp [catalogHeight, hmap, htarget, hkey]
    · simp [catalogHeight, hmap, htarget, hvalue]
  · rcases hg with rfl | rfl
    · simp [catalogHeight, hmap, htarget, hkey]
    · cases hleads : g.isMap <;> simp [catalogHeight, hmap, htarget, hvalue, hleads]

private theorem entry?_linesEntry (kind : Kind) (route : Option Route) :
    (catalog kind route).index.entry? "shop.Order.LinesEntry" =
      some (⟨"key", none, "", .string, .optional, none, false⟩,
        ⟨"value", none, "", kind, .optional, some "shop.Order.Line", false⟩) :=
  rfl

/-- Where the values of the map are groups, that is reported before a binding without a route. -/
theorem packages_documentable_catalog :
    (catalog .group none).index? = .ok (catalog .group none).index ∧
      (catalog .group none).index.Acyclic ∧
      (catalog .group none).packages = .error (.unsupportedKind "value" .group) := by
  have hacyclic := acyclic_catalog .group none
  refine ⟨index?_catalog _ _, hacyclic, ?_⟩
  have hfirst := (packages_documentable (index?_catalog .group none) hacyclic).2.1
  refine (hfirst _).mpr ⟨[.field ⟨"tag_names", none, "", .string, .repeated, none, false⟩],
    .field ⟨"lines", none, "", .message, .repeated, some "shop.Order.LinesEntry", true⟩,
    [.method "Orders" ⟨"Find", "", "shop.Order", "google.protobuf.Empty", false, false,
      some ⟨none, none⟩⟩], ?_, ?_, ?_⟩
  · rw [checks, ordered_catalog]
    rfl
  · exact List.forall_mem_singleton.mpr (.plain rfl (by decide) (by decide))
  · exact .value rfl (entry?_linesEntry .group none) (.plain rfl (by decide) (by decide))
      (.kind rfl (.inl rfl))

end Schema
end SchemaDocs
