import SchemaDocs.Proofs.Reference
import SchemaDocs.Proofs.Refusal

/-!
# The types of a file

A package holds a type for every enumeration and message of its file, at any depth, but for entry
messages of map fields and what is declared inside them. Each stands under its own name and shows
that declaration; since an indexed schema has no two of one name in a package, none takes the place
of another, and looking for a free place never fails. Main statement: `package_registers`.
-/

namespace SchemaDocs

open Doc (TypeDoc Package)
open Schema (Index Declaration File)

namespace Schema

/-- A message, unless it is an entry message, declares itself and what is declared inside it. -/
inductive Message.Declares : Message → Declaration → Prop
  | self {m : Message} : m.isMapEntry = false → Declares m (.message m)
  | enum {m : Message} {e : Enum} : m.isMapEntry = false → e ∈ m.enums → Declares m (.enum e)
  | inner {m inner : Message} {d : Declaration} :
    m.isMapEntry = false → inner ∈ m.messages → Declares inner d → Declares m d

/-- A file declares its enumerations, and what its messages declare. -/
inductive File.Declares (f : File) : Declaration → Prop
  | enum {e : Enum} : e ∈ f.enums → Declares f (.enum e)
  | message {m : Message} {d : Declaration} : m ∈ f.messages → m.Declares d → Declares f d

private theorem Message.declares_iff {m : Message} {d : Declaration} :
    m.Declares d ↔ m.isMapEntry = false ∧
      (d = .message m ∨ (∃ e ∈ m.enums, .enum e = d) ∨ ∃ n ∈ m.messages, n.Declares d) := by
  constructor
  · intro h
    cases h with
    | self hentry => exact ⟨hentry, .inl rfl⟩
    | enum hentry he => exact ⟨hentry, .inr (.inl ⟨_, he, rfl⟩)⟩
    | inner hentry hn hd => exact ⟨hentry, .inr (.inr ⟨_, hn, hd⟩)⟩
  · intro h
    obtain ⟨hentry, rfl | ⟨e, he, rfl⟩ | ⟨n, hn, hd⟩⟩ := h
    · exact .self hentry
    · exact .enum hentry he
    · exact .inner hentry hn hd

mutual

private theorem Message.mem_documented_iff : ∀ (m : Message) (d : Declaration),
    d ∈ m.documented ↔ m.Declares d
  | ⟨name, fullName, description, fields, messages, enums, isMapEntry⟩, d => by
    rw [Message.documented, Message.declares_iff]
    cases isMapEntry with
    | true => simp
    | false => simp [mem_documentedOf_iff messages d]

private theorem mem_documentedOf_iff : ∀ (ms : List Message) (d : Declaration),
    d ∈ documentedOf ms ↔ ∃ m ∈ ms, m.Declares d
  | [], d => by simp [documentedOf]
  | m :: ms, d => by
    rw [documentedOf, List.mem_append, m.mem_documented_iff d, mem_documentedOf_iff ms d]
    simp

end

theorem File.mem_documented_iff {f : File} {d : Declaration} :
    d ∈ f.documented ↔ f.Declares d := by
  rw [File.documented, List.mem_append, List.mem_map, mem_documentedOf_iff]
  constructor
  · intro h
    rcases h with ⟨e, he, rfl⟩ | ⟨m, hm, hd⟩
    · exact .enum he
    · exact .message hm hd
  · intro h
    cases h with
    | enum he => exact .inl ⟨_, he, rfl⟩
    | message hm hd => exact .inr ⟨_, hm, hd⟩

theorem nodup_names_documented {s : Schema} {f : File} (h : s.clash? = none) (hf : f ∈ s.files) :
    (f.documented.map (·.name)).Nodup := by
  have hslots : f.slots.Nodup := (List.nodup_flatMap.mp (nodup_slots h)).1 f (mem_ordered.mpr hf)
  have hpairs : f.slots = (f.documented.map (·.name)).map fun name => (f.package, name) := by
    rw [File.slots, List.map_map]
    rfl
  rw [hpairs] at hslots
  exact hslots.of_map _

theorem index?_eq_ok_iff {s : Schema} {ix : Index} :
    s.index? = .ok ix ↔ s.clash? = none ∧ ix = s.index := by
  rw [index?]
  cases s.clash? with
  | none => simp [eq_comm]
  | some clash => simp

end Schema

/-- Whether an error reports a name as taken. -/
def ConversionError.isClash : ConversionError → Bool
  | .duplicateType .. => true
  | _ => false

namespace Conversion

variable {ix : Index} {package : String} {ds : List Declaration} {types : KeyMap TypeDoc}
  {e : ConversionError}

/-- What a type shows of a declaration: the values of an enumeration in their order, and the fields
of a message in theirs, under their wire names. -/
inductive Describes (ix : Index) : Declaration → TypeDoc → Prop
  | enum (e : Schema.Enum) :
    Describes ix (.enum e) (.enum e.name (Comment.longFor e.name e.description)
      (e.values.map fun v => ⟨v.name, Comment.shortFor v.name v.description⟩))
  | message (m : Schema.Message) (fields : List Doc.Field) :
    List.Forall₂ (fun f d => d.name = f.wireName ∧
      d.description = Comment.shortFor f.name f.description ∧ typeOf ix f = .ok d.type)
      m.fields fields →
    Describes ix (.message m) (.message m.name (Comment.longFor m.name m.description) fields)

theorem describes_of_declaration {d : Declaration} {type : TypeDoc}
    (h : declaration ix d = .ok type) : Describes ix d type := by
  cases d with
  | enum e =>
    cases h
    exact .enum e
  | message m =>
    obtain ⟨fields, hfields, rfl⟩ := declaration_message_eq_ok_iff.mp h
    exact .message m fields ((mapM_eq_ok_iff.mp hfields).imp fun _ _ => field_eq_ok_iff.mp)

/-! ## A place for every declaration -/

private theorem mem_keys_typesOf (h : typesOf ix package ds = .ok types) {key : String} :
    key ∈ types.keys ↔ key ∈ ds.map (·.name) := by
  rw [KeyMap.mem_keys_iff, List.mem_map]
  constructor
  · intro hkey
    obtain ⟨type, htype⟩ := hkey
    obtain ⟨d, hd, hname, -⟩ := (get?_typesOf h).mp htype
    exact ⟨d, hd, hname⟩
  · intro hkey
    obtain ⟨d, hd, hname⟩ := hkey
    obtain ⟨type, htype⟩ := exists_declaration_of_typesOf h hd
    exact ⟨type, (get?_typesOf h).mpr ⟨d, hd, hname, htype⟩⟩

private theorem addType_of_free {name : String} {type : TypeDoc} (h : name ∉ types.keys) :
    addType package types name type = .ok (types.insert name type) := by
  have hfree : types.get? name = none := by
    cases hget : types.get? name with
    | none => rfl
    | some other => exact absurd (KeyMap.mem_keys_iff.mpr ⟨other, hget⟩) h
  exact addType_eq_ok_iff.mpr ⟨hfree, rfl⟩

/-- Where names differ from each other and from those that are taken, the first declaration that
has no documentation decides the error. -/
private theorem addTypes_eq_error_iff (hnames : (ds.map (·.name)).Nodup)
    (hfree : ∀ d ∈ ds, d.name ∉ types.keys) :
    ds.foldlM (fun types d => do addType package types d.name (← declaration ix d)) types =
      .error e ↔ FirstFault (fun d e => declaration ix d = .error e) ds e := by
  induction ds generalizing types with
  | nil => simpa using pure_ne_error
  | cons d ds ih =>
    obtain ⟨hd, hfree⟩ := List.forall_mem_cons.mp hfree
    obtain ⟨hnew, hnames⟩ := List.nodup_cons.mp hnames
    have hrest (type : TypeDoc) : ∀ d' ∈ ds, d'.name ∉ (types.insert d.name type).keys := by
      intro d' hd' hkey
      rcases KeyMap.mem_keys_insert.mp hkey with hsame | hkey
      · exact hnew (List.mem_map.mpr ⟨d', hd', hsame⟩)
      · exact hfree d' hd' hkey
    rw [List.foldlM_cons, bind_eq_error_iff, firstFault_cons]
    cases htype : declaration ix d with
    | error e' => simp [bind, Except.bind]
    | ok type =>
      have hadd : (Except.ok type >>= fun type => addType package types d.name type) =
          .ok (types.insert d.name type) := addType_of_free hd
      simp [hadd, ih hnames (hrest type)]

theorem typesOf_eq_error_iff (hnames : (ds.map (·.name)).Nodup) :
    typesOf ix package ds = .error e ↔
      FirstFault (fun d e => declaration ix d = .error e) ds e :=
  addTypes_eq_error_iff hnames (by simp [KeyMap.keys])

/-! ## Errors of a file -/

private theorem isClash_of_fault {f : Schema.Field} (h : f.Fault ix e) : e.isClash = false := by
  induction h with
  | kind => rfl
  | entry => rfl
  | key _ _ _ ih => exact ih
  | value _ _ _ _ ih => exact ih

/-- Chains may be cycles here, so the error can also be that of the bound. -/
theorem isClash_of_typeWithin {depth : Nat} {f : Schema.Field}
    (h : typeWithin ix depth f = .error e) : e.isClash = false := by
  induction depth generalizing f with
  | zero =>
    cases hmap : f.isMap with
    | false => exact isClash_of_fault ((typeWithin_eq_error_iff_of_not_map hmap).mp h)
    | true =>
      rw [typeWithin_zero hmap] at h
      cases h
      rfl
  | succ depth ih =>
    cases hmap : f.isMap with
    | false => exact isClash_of_fault ((typeWithin_eq_error_iff_of_not_map hmap).mp h)
    | true =>
      rw [typeWithin_succ hmap] at h
      split at h
      · cases h
        rfl
      · rw [bind_eq_error_iff] at h
        rcases h with h | ⟨k, -, h⟩
        · exact ih h
        · exact ih (bind_pure_eq_error_iff.mp h)

private theorem isClash_of_typesOf (hnames : (ds.map (·.name)).Nodup)
    (h : typesOf ix package ds = .error e) : e.isClash = false := by
  obtain ⟨before, d, after, -, -, hd⟩ := (typesOf_eq_error_iff hnames).mp h
  obtain ⟨before, f, after, -, -, hf⟩ := declaration_eq_error_iff.mp hd
  exact isClash_of_typeWithin hf

private theorem isClash_of_services {services : List Schema.Service}
    (h : services.mapM (service ix) = .error e) : e.isClash = false := by
  obtain ⟨before, s, after, -, -, hs⟩ := mapM_eq_error_iff.mp h
  obtain ⟨before, m, after, -, -, hm⟩ := service_eq_error_iff.mp hs
  cases hm with
  | route => rfl
  | request => rfl
  | body => rfl

theorem package_eq_error_iff {f : File} :
    Conversion.package ix f = .error e ↔
      typesOf ix f.package f.documented = .error e ∨
      (∃ types, typesOf ix f.package f.documented = .ok types) ∧
        f.services.mapM (service ix) = .error e := by
  rw [Conversion.package, bind_eq_error_iff]
  simp only [bind_pure_eq_error_iff, exists_and_right]

/-- The types of a file: one for each of its declarations, which it shows. -/
structure Registered (ix : Index) (f : File) (types : KeyMap TypeDoc) : Prop where
  keys : ∀ key, key ∈ types.keys ↔ ∃ d, f.Declares d ∧ d.name = key
  shown : ∀ d, f.Declares d → ∃ type, types.get? d.name = some type ∧ Describes ix d type
  distinct : ∀ d d', f.Declares d → f.Declares d' → d.name = d'.name → d = d'
  /-- There are as many types as declarations: none is lost or takes the place of another. -/
  each : types.keys.Perm (f.documented.map (·.name))

private theorem registered_of_typesOf {f : File} (hnames : (f.documented.map (·.name)).Nodup)
    (h : typesOf ix f.package f.documented = .ok types) : Registered ix f types := by
  constructor
  case keys =>
    intro key
    rw [mem_keys_typesOf h, List.mem_map]
    simp only [File.mem_documented_iff]
  case shown =>
    intro d hd
    have hmem : d ∈ f.documented := File.mem_documented_iff.mpr hd
    obtain ⟨type, htype⟩ := exists_declaration_of_typesOf h hmem
    exact ⟨type, (get?_typesOf h).mpr ⟨d, hmem, rfl, htype⟩, describes_of_declaration htype⟩
  case distinct =>
    intro d d' hd hd' hname
    have hmem : d ∈ f.documented := File.mem_documented_iff.mpr hd
    have hmem' : d' ∈ f.documented := File.mem_documented_iff.mpr hd'
    exact List.inj_on_of_nodup_map hnames hmem hmem' hname
  case each =>
    exact (List.perm_ext_iff_of_nodup types.nodup_keys hnames).mpr fun key => mem_keys_typesOf h

/-- Where an indexed schema is converted file by file, the types of a package are the declarations
of its file, and no file fails because a name is taken. -/
theorem package_registers {s : Schema} {f : File} (h : s.index? = .ok ix) (hf : f ∈ s.files) :
    (∀ p, Conversion.package ix f = .ok p → Registered ix f p.types) ∧
      ∀ package name, Conversion.package ix f ≠ .error (.duplicateType package name) := by
  obtain ⟨hclash, rfl⟩ := Schema.index?_eq_ok_iff.mp h
  have hnames := Schema.nodup_names_documented hclash hf
  refine ⟨fun p hp => ?_, fun package name herror => ?_⟩
  · obtain ⟨-, -, -, -, htypes⟩ := package_eq_ok_iff.mp hp
    exact registered_of_typesOf hnames htypes
  · rcases package_eq_error_iff.mp herror with htypes | ⟨-, hservices⟩
    · exact Bool.noConfusion (isClash_of_typesOf hnames htypes)
    · exact Bool.noConfusion (isClash_of_services hservices)

end Conversion

namespace Schema

/-- The entry message of a map to values of the given kind, with an enumeration inside it. -/
def linesEntry (value : Kind) : Message :=
  { name := "LinesEntry", fullName := "shop.Order.LinesEntry", description := "",
    fields := [⟨"key", none, "", .string, .optional, none, false⟩,
      ⟨"value", none, "", value, .optional, some "shop.Order.Line", false⟩],
    messages := [], enums := [⟨"Hidden", "shop.Order.LinesEntry.Hidden", "", []⟩],
    isMapEntry := true }

/-- Orders with a list of tags and a map of lines, and two more declarations inside. -/
def catalogMessage (value : Kind) : Message :=
  { name := "Order", fullName := "shop.Order", description := "",
    fields := [⟨"tag_names", none, "", .string, .repeated, none, false⟩,
      ⟨"lines", none, "", .message, .repeated, some "shop.Order.LinesEntry", true⟩],
    messages := [linesEntry value, .plain "Line" "shop.Order.Line"],
    enums := [⟨"State", "shop.Order.State", "", [⟨"OPEN", 0, ""⟩, ⟨"PAID", 1, ""⟩]⟩],
    isMapEntry := false }

/-- The file of the catalog, with a method that asks for orders by a route, if there is one. -/
def catalogFile (value : Kind) (route : Option Route) : File :=
  { File.holding "catalog.proto" "shop" (catalogMessage value) with
    services := [⟨"Orders", "", [⟨"Find", "", "shop.Order", "google.protobuf.Empty", false, false,
      some ⟨route, none⟩⟩]⟩] }

def catalog (value : Kind) (route : Option Route) : Schema := ⟨[catalogFile value route]⟩

def catalogPackage : Package :=
  { name := "shop", id := "shop", description := "",
    services := [⟨"Orders", "", [⟨"Find", "", "GET", "/orders", none, .ref "shop.Order",
      .basic "Empty" "", false, false⟩]⟩],
    types := KeyMap.ofList
      [("Line", .message "Line" "" []),
        ("Order", .message "Order" ""
          [.mk "tagNames" "" (.array (.basic "String" "")),
            .mk "lines" "" (.map (.basic "String" "") (.ref "shop.Line"))]),
        ("State", .enum "State" "" [⟨"OPEN", ""⟩, ⟨"PAID", ""⟩])] }

theorem index?_catalog (value : Kind) (route : Option Route) :
    (catalog value route).index? = .ok (catalog value route).index :=
  index?_eq_ok_iff.mpr ⟨rfl, rfl⟩

theorem ordered_catalog (value : Kind) (route : Option Route) :
    (catalog value route).ordered = [catalogFile value route] :=
  List.mergeSort_singleton _

theorem package_catalog : Conversion.package (catalog .message (some (.get "/orders"))).index
    (catalogFile .message (some (.get "/orders"))) = .ok catalogPackage := by
  cbv

/-- The entry message and what stands inside it have no place among the types. -/
theorem package_registers_catalog :
    let s := catalog .message (some (.get "/orders"))
    s.index? = .ok s.index ∧ (∀ f ∈ s.files,
      Conversion.package s.index f = .ok catalogPackage ∧
        Conversion.Registered s.index f catalogPackage.types) ∧
      catalogPackage.types.keys = ["Line", "Order", "State"] := by
  refine ⟨index?_catalog _ _, List.forall_mem_singleton.mpr ⟨package_catalog, ?_⟩, rfl⟩
  have hfile : catalogFile .message (some (.get "/orders")) ∈
    (catalog .message (some (.get "/orders"))).files := List.mem_cons_self
  exact (Conversion.package_registers (index?_catalog _ _) hfile).1 _ package_catalog

end Schema
end SchemaDocs
