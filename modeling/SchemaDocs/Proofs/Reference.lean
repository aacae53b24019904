import Mathlib
import SchemaDocs.Proofs.Index
import SchemaDocs.Proofs.Mention
import SchemaDocs.Proofs.Name
import SchemaDocs.Proofs.Pruning

/-!
# References of a converted schema

The packages of a schema refer to what its files use, and a name leads in them to the declaration
that is documented under it. A name that nothing declares stays as it is, and so is not told apart
from the documented name of a declaration inside a message. Main statements:
`resolve_documented`, `undeclared_reported_iff`.
-/

namespace SchemaDocs
namespace Schema

open Doc (Package TypeDoc)

variable {s : Schema} {ps : List Package} {name : String}

/-- Some file of the schema refers to a full name. -/
def Uses (s : Schema) (target : String) : Prop := ∃ f ∈ s.files, f.Uses s.index target

/-- Some declaration of the schema is documented under a name. -/
def Documents (s : Schema) (name : String) : Prop :=
  ∃ f ∈ s.files, ∃ d ∈ f.documented, Name.qualify f.package d.name = name

theorem packages_eq_ok_iff :
    s.packages = .ok ps ↔
      s.clash? = none ∧ s.ordered.mapM (Conversion.package s.index) = .ok ps := by
  simp only [packages, bind_eq_ok_iff, index?]
  cases s.clash? with
  | none => simp
  | some clash => simp

private theorem mem_refs_packages (hs : s.packages = .ok ps) :
    name ∈ ps.flatMap (·.refs) ↔ ∃ target, s.Uses target ∧ name = s.index.flatName target := by
  have hall := (packages_eq_ok_iff.mp hs).2
  rw [List.mem_flatMap]
  constructor
  · intro h
    obtain ⟨p, hp, hn⟩ := h
    obtain ⟨f, hf, hfp⟩ := (mem_iff_of_mapM hall).mp hp
    obtain ⟨target, hu, hn⟩ := (Conversion.mem_refs_package hfp).mp hn
    exact ⟨target, ⟨f, mem_ordered.mp hf, hu⟩, hn⟩
  · intro h
    obtain ⟨target, ⟨f, hf, hu⟩, hn⟩ := h
    obtain ⟨i, hi⟩ := List.getElem?_of_mem (mem_ordered.mpr hf)
    obtain ⟨p, hp, hfp⟩ := getElem?_of_mapM hall hi
    exact ⟨p, List.mem_of_getElem? hp, (Conversion.mem_refs_package hfp).mpr ⟨target, hu, hn⟩⟩

theorem mem_entries_packages (hs : s.packages = .ok ps) {i : Nat} {p : Package} {key : String}
    {type : TypeDoc} :
    (p, i) ∈ Scope.ofPackages ps ∧ p.types.get? key = some type ↔
      ∃ f, s.ordered[i]? = some f ∧ Conversion.package s.index f = .ok p ∧
        ∃ d ∈ f.documented, d.name = key ∧ Conversion.declaration s.index d = .ok type := by
  have hall := (packages_eq_ok_iff.mp hs).2
  rw [Scope.mem_ofPackages]
  constructor
  · intro h
    obtain ⟨hp, hget⟩ := h
    obtain ⟨f, hf, hfp⟩ := getElem?_mapM hall hp
    obtain ⟨-, -, -, -, htypes⟩ := Conversion.package_eq_ok_iff.mp hfp
    exact ⟨f, hf, hfp, (Conversion.get?_typesOf htypes).mp hget⟩
  · intro h
    obtain ⟨f, hf, hfp, hd⟩ := h
    obtain ⟨q, hq, hfq⟩ := getElem?_of_mapM hall hf
    rw [hfp] at hfq
    cases hfq
    obtain ⟨-, -, -, -, htypes⟩ := Conversion.package_eq_ok_iff.mp hfp
    exact ⟨hq, (Conversion.get?_typesOf htypes).mpr hd⟩

private theorem exists_entry (hs : s.packages = .ok ps) {i : Nat} {f : File} {d : Declaration}
    (hf : s.ordered[i]? = some f) (hd : d ∈ f.documented) :
    ∃ p type, ps[i]? = some p ∧ p.id = f.package ∧ p.types.get? d.name = some type ∧
      Conversion.package s.index f = .ok p ∧ Conversion.declaration s.index d = .ok type := by
  obtain ⟨p, hp, hfp⟩ := getElem?_of_mapM (packages_eq_ok_iff.mp hs).2 hf
  obtain ⟨-, hid, -, -, htypes⟩ := Conversion.package_eq_ok_iff.mp hfp
  obtain ⟨type, htype⟩ := Conversion.exists_declaration_of_typesOf htypes hd
  exact ⟨p, type, hp, hid, (Conversion.get?_typesOf htypes).mpr ⟨d, hd, rfl, htype⟩, hfp, htype⟩

private theorem resolve_of_find? (hs : s.packages = .ok ps) {t : Target}
    (h : (Scope.ofPackages ps).find? name = some t) :
    (Scope.ofPackages ps).resolve name = .ok t := by
  obtain ⟨hmem, hget, -⟩ := Scope.mem_of_find? h
  obtain ⟨-, -, -, d, -, -, htype⟩ := (mem_entries_packages hs).mp ⟨hmem, hget⟩
  exact Scope.resolve_eq_ok_iff.mpr ⟨h, Conversion.isDeclaration_of_declaration htype⟩

private theorem exists_resolve_iff (hs : s.packages = .ok ps) :
    (∃ t, (Scope.ofPackages ps).resolve name = .ok t) ↔ s.Documents name := by
  constructor
  · intro h
    obtain ⟨t, ht⟩ := h
    obtain ⟨hmem, hget, hname⟩ := Scope.mem_of_find? (Scope.resolve_eq_ok_iff.mp ht).1
    obtain ⟨f, hf, hfp, d, hd, hkey, -⟩ := (mem_entries_packages hs).mp ⟨hmem, hget⟩
    obtain ⟨-, hid, -⟩ := Conversion.package_eq_ok_iff.mp hfp
    refine ⟨f, mem_ordered.mp (List.mem_of_getElem? hf), d, hd, ?_⟩
    rw [← hname, Target.fullName, hid, hkey]
  · intro h
    obtain ⟨f, hf, d, hd, rfl⟩ := h
    obtain ⟨i, hi⟩ := List.getElem?_of_mem (mem_ordered.mpr hf)
    obtain ⟨p, type, hp, hid, hget, -⟩ := exists_entry hs hi hd
    obtain ⟨t, ht⟩ := Scope.exists_find? (Scope.mem_ofPackages.mpr hp) hget rfl
    rw [hid] at ht
    exact ⟨t, resolve_of_find? hs ht⟩

private theorem resolve_eq_error_iff (hs : s.packages = .ok ps) {e : ResolutionError} :
    (Scope.ofPackages ps).resolve name = .error e ↔ ¬ s.Documents name ∧ e = .unresolved name := by
  rw [← exists_resolve_iff hs]
  constructor
  · intro h
    cases hf : (Scope.ofPackages ps).find? name with
    | none =>
      rw [Scope.resolve, hf] at h
      cases h
      exact ⟨fun hex => by simp [Scope.resolve, hf] at hex, rfl⟩
    | some t =>
      rw [resolve_of_find? hs hf] at h
      cases h
  · intro h
    obtain ⟨hnot, rfl⟩ := h
    cases hf : (Scope.ofPackages ps).find? name with
    | none => rw [Scope.resolve, hf]
    | some t => exact absurd ⟨t, resolve_of_find? hs hf⟩ hnot

/-- Where names have no dots, a declaration is found under its documented name. -/
theorem resolve_qualify (hs : s.packages = .ok ps)
    (hdot : ∀ x ∈ s.declared, '.' ∉ x.declaration.name.toList) {i : Nat} {f : File}
    {d : Declaration} (hf : s.ordered[i]? = some f) (hd : d ∈ f.documented) :
    ∃ p type, ps[i]? = some p ∧ Conversion.package s.index f = .ok p ∧
      Conversion.declaration s.index d = .ok type ∧
      (Scope.ofPackages ps).resolve (Name.qualify f.package d.name) = .ok ⟨i, p, d.name, type⟩ := by
  obtain ⟨p, type, hp, hid, hget, hfp, htype⟩ := exists_entry hs hf hd
  refine ⟨p, type, hp, hfp, htype, resolve_of_find? hs ?_⟩
  have hname {g : File} {e : Declaration} (hg : g ∈ s.ordered) (he : e ∈ g.documented) :
      '.' ∉ e.name.toList :=
    hdot _ (mem_declared (mem_ordered.mp hg) (g.sublist_documented.subset he))
  refine Scope.find?_of_unique (Scope.mem_ofPackages.mpr hp) hget ?_ ?_
  · rw [Target.fullName, hid]
  · intro u humem huget hufull
    obtain ⟨g, hg, hgq, e, he, hkey, -⟩ := (mem_entries_packages hs).mp ⟨humem, huget⟩
    obtain ⟨-, hgid, -⟩ := Conversion.package_eq_ok_iff.mp hgq
    rw [Target.fullName, hgid, ← hkey] at hufull
    obtain ⟨hpackage, hsame⟩ := Name.qualify_inj (hname (List.mem_of_getElem? hg) he)
      (hname (List.mem_of_getElem? hf) hd) hufull
    have hij := documented_unique (packages_eq_ok_iff.mp hs).1 hg hf he hd hpackage hsame
    obtain ⟨position, package, key, type'⟩ := u
    subst hij hkey
    rw [Scope.mem_ofPackages, hp] at humem
    cases humem
    rw [hsame, hget] at huget
    cases huget
    rw [hsame]

/-- References by documented name lead to the declaration that was meant. All references of a
package stand at places, and at each place stands the documented name of what the file names there.
Where full names are distinct and names have no dots, and a declaration is documented that is named
there, the reference at that place resolves to its entry in the package of its file. -/
theorem resolve_documented (hs : s.packages = .ok ps)
    (hdistinct : (s.declared.map (·.declaration.fullName)).Nodup)
    (hdot : ∀ x ∈ s.declared, '.' ∉ x.declaration.name.toList) :
    (∀ p ∈ ps, ∀ n, n ∈ p.refs ↔ ∃ place, p.refAt place = some n) ∧
      ∀ (i : Nat) (f : File) (p : Package), s.ordered[i]? = some f → ps[i]? = some p → ∀ place,
        (∀ n, p.refAt place = some n ↔
          ∃ target, f.UsesAt s.index place target ∧ n = s.index.flatName target) ∧
        ∀ target, f.UsesAt s.index place target →
          ∀ (j : Nat) (g : File) (d : Declaration), s.ordered[j]? = some g → d ∈ g.documented →
            d.fullName = target → ∃ n q type, p.refAt place = some n ∧ ps[j]? = some q ∧
              Conversion.package s.index g = .ok q ∧ Conversion.declaration s.index d = .ok type ∧
              (Scope.ofPackages ps).resolve n = .ok ⟨j, q, d.name, type⟩ := by
  have hall := (packages_eq_ok_iff.mp hs).2
  refine ⟨fun p hp n => ?_, fun i f p hf hp place => ?_⟩
  · obtain ⟨f, -, hfp⟩ := (mem_iff_of_mapM hall).mp hp
    exact Conversion.mem_refs_iff_refAt hfp
  · obtain ⟨q, hq, hfp⟩ := getElem?_of_mapM hall hf
    rw [hp] at hq
    cases hq
    have hplace (n : String) : p.refAt place = some n ↔ _ := Conversion.refAt_package_iff hfp
    refine ⟨hplace, fun target hu j g d hg hd hname => ?_⟩
    have hflat : s.index.flatName target = Name.qualify g.package d.name := by
      rw [← hname]
      exact flatName_of_mem hdistinct (mem_declared (mem_ordered.mp (List.mem_of_getElem? hg))
        (g.sublist_documented.subset hd))
    obtain ⟨q, type, hq, hgq, htype, hresolve⟩ := resolve_qualify hs hdot hg hd
    rw [← hflat] at hresolve
    exact ⟨_, q, type, (hplace _).mpr ⟨target, hu, rfl⟩, hq, hgq, htype, hresolve⟩

def Message.plain (name fullName : String) : Message := ⟨name, fullName, "", [], [], [], false⟩

def File.holding (name package : String) (message : Message) : File :=
  { name, package, displayName := none, description := "", enums := [], messages := [message],
    services := [], generate := true }

/-- An order that declares a line, and has a field of the given type. -/
def orderMessage (target : String) : Message :=
  { name := "Order", fullName := "shop.Order", description := "",
    fields := [⟨"line", none, "", .message, .optional, some target, false⟩],
    messages := [.plain "Line" "shop.Order.Line"], enums := [], isMapEntry := false }

def orderFile (target : String) : File := .holding "shop.proto" "shop" (orderMessage target)

def shop (target : String) : Schema :=
  ⟨[orderFile target, .holding "base.proto" "" (.plain "Unit" "Unit")]⟩

/-- The packages of a shop, with the name that stands for the field's type. -/
def shopPackages (target : String) : List Package :=
  [{ name := "", id := "", description := "", services := [],
     types := KeyMap.ofList [("Unit", .message "Unit" "" [])] },
    { name := "shop", id := "shop", description := "", services := [],
      types := KeyMap.ofList
        [("Line", .message "Line" "" []),
          ("Order", .message "Order" "" [.mk "line" "" (.ref target)])] }]

private theorem ordered_shop (target : String) :
    (shop target).ordered = (shop target).files.reverse := by
  simp [ordered, shop, orderFile, File.holding, List.mergeSort]

private theorem packages_shop {target : String} {ps : List Package}
    (h : (shop target).files.reverse.mapM (Conversion.package (shop target).index) = .ok ps) :
    (shop target).packages = .ok ps := by
  rw [packages_eq_ok_iff, ordered_shop]
  exact ⟨rfl, h⟩

theorem resolve_documented_shop :
    (shop "shop.Order.Line").packages = .ok (shopPackages "shop.Line") ∧
      (orderFile "shop.Order.Line").UsesAt (shop "shop.Order.Line").index (.field "Order" 0 [])
        "shop.Order.Line" ∧
      ∃ n q type, (shopPackages "shop.Line")[1]? = some q ∧
        q.refAt (.field "Order" 0 []) = some n ∧
        (Scope.ofPackages (shopPackages "shop.Line")).resolve n = .ok ⟨1, q, "Line", type⟩ := by
  have hs : (shop "shop.Order.Line").packages = .ok (shopPackages "shop.Line") :=
    packages_shop (by cbv)
  have hfile : (shop "shop.Order.Line").ordered[1]? = some (orderFile "shop.Order.Line") := by
    rw [ordered_shop]
    rfl
  have horder : .message (orderMessage "shop.Order.Line") ∈
      (orderFile "shop.Order.Line").documented := List.mem_cons_self
  have hline : .message (.plain "Line" "shop.Order.Line") ∈
      (orderFile "shop.Order.Line").documented :=
    List.mem_cons_of_mem _ List.mem_cons_self
  have huses : (orderFile "shop.Order.Line").UsesAt (shop "shop.Order.Line").index
      (.field "Order" 0 []) "shop.Order.Line" :=
    .field horder rfl (.message rfl rfl (by decide))
  obtain ⟨-, hplaces⟩ := resolve_documented hs (by decide) (by decide)
  obtain ⟨n, q, type, hn, hq, -, -, hresolve⟩ :=
    (hplaces 1 _ _ hfile rfl _).2 _ huses 1 _ _ hfile hline rfl
  cases hq
  exact ⟨hs, huses, n, _, type, rfl, hn, hresolve⟩

/-- A message with a field whose enumeration stands inside an entry message of a map. -/
def entryMessage : Message :=
  { name := "Order", fullName := "shop.Order", description := "",
    fields := [⟨"state", none, "", .enum, .optional, some "shop.Order.Entry.State", false⟩],
    messages := [⟨"Entry", "shop.Order.Entry", "", [], [],
      [⟨"State", "shop.Order.Entry.State", "", []⟩], true⟩],
    enums := [], isMapEntry := false }

def entryFile : File := .holding "shop.proto" "shop" entryMessage

def entrySchema : Schema := ⟨[entryFile]⟩

def entryPackages : List Package :=
  [{ name := "shop", id := "shop", description := "", services := [],
     types := KeyMap.ofList [("Order", .message "Order" "" [.mk "state" "" (.ref "shop.State")])] }]

/-- What stands inside an entry message is declared but not documented, and does not resolve. -/
theorem resolve_inside_entry :
    entrySchema.packages = .ok entryPackages ∧
      (entrySchema.declared.map (·.declaration.fullName)).Nodup ∧
      (∀ x ∈ entrySchema.declared, '.' ∉ x.declaration.name.toList) ∧
      ⟨"shop", .enum ⟨"State", "shop.Order.Entry.State", "", []⟩⟩ ∈ entrySchema.declared ∧
      entryFile.UsesAt entrySchema.index (.field "Order" 0 []) "shop.Order.Entry.State" ∧
      entryPackages[0].refAt (.field "Order" 0 []) = some "shop.State" ∧
      (Scope.ofPackages entryPackages).resolve "shop.State" =
        .error (.unresolved "shop.State") := by
  refine ⟨by cbv, by decide, by decide, ?_, ?_, by cbv, by cbv⟩
  · exact List.mem_cons_of_mem _ (List.mem_cons_of_mem _ List.mem_cons_self)
  · have hm : .message entryMessage ∈ entryFile.documented := List.mem_cons_self
    exact .field hm rfl (.enum rfl rfl)

/-! ## Names that nothing declares -/

/-- A file names a type, other than for a message shown as a basic type: in a field of a documented
message, or as the request or response of a method that is bound to HTTP. -/
inductive File.Names (f : File) : String → Prop
  | field {m : Message} {fd : Field} :
    .message m ∈ f.documented → fd ∈ m.fields →
      fd.kind = .enum ∨ fd.kind = .message ∧ ¬ IsBasic fd.target → Names f fd.target
  | input {s : Service} {m : Method} :
    s ∈ f.services → m ∈ s.methods → m.http.isSome = true → ¬ IsBasic m.input → Names f m.input
  | output {s : Service} {m : Method} :
    s ∈ f.services → m ∈ s.methods → m.http.isSome = true → ¬ IsBasic m.output → Names f m.output

private theorem isMap_eq_false_of_undeclared (hs : s.packages = .ok ps) {f : File} {m : Message}
    {fd : Field} (hf : f ∈ s.files) (hm : .message m ∈ f.documented) (hfd : fd ∈ m.fields)
    (hundeclared : ∀ x ∈ s.declared, x.declaration.fullName ≠ fd.target) : fd.isMap = false := by
  obtain ⟨i, hi⟩ := List.getElem?_of_mem (mem_ordered.mpr hf)
  obtain ⟨-, type, -, -, -, -, htype⟩ := exists_entry hs hi hm
  obtain ⟨t, ht⟩ := Conversion.exists_typeOf htype hfd
  cases hmap : fd.isMap with
  | false => rfl
  | true =>
    obtain ⟨_, _, _, _, _, _, _, _, hentry, _⟩ := Conversion.typeWithin_of_map hmap ht
    obtain ⟨x, hx, hname⟩ := exists_declared_of_message? hentry
    exact absurd hname (hundeclared x hx)

private theorem uses_of_names (hs : s.packages = .ok ps) {f : File} {target : String}
    (hf : f ∈ s.files)
    (hnames : f.Names target)
    (hundeclared : ∀ x ∈ s.declared, x.declaration.fullName ≠ target) : s.Uses target := by
  refine ⟨f, hf, ?_⟩
  cases hnames with
  | field hm hfd hkind =>
    have hmap := isMap_eq_false_of_undeclared hs hf hm hfd hundeclared
    exact .field hm hfd ((Field.uses_iff_of_not_map hmap).mpr ⟨hkind, rfl⟩)
  | input hservice hm hhttp hbasic => exact .input hservice hm hhttp hbasic
  | output hservice hm hhttp hbasic => exact .output hservice hm hhttp hbasic

/-- Pruning the packages of a schema fails exactly when a used name has no documentation, and then
it reports such a name as unresolved. -/
theorem prune_unresolved_iff (hs : s.packages = .ok ps) :
    (∃ n, prune ps = .error (.unresolved n)) ↔
      ∃ target, s.Uses target ∧ ¬ s.Documents (s.index.flatName target) := by
  have href {p : Package} {n : String} (hp : p ∈ ps) (hn : n ∈ p.refs) :
      ∃ target, s.Uses target ∧ n = s.index.flatName target :=
    (mem_refs_packages hs).mp (List.mem_flatMap.mpr ⟨p, hp, hn⟩)
  constructor
  · intro h
    obtain ⟨n, hprune⟩ := h
    obtain ⟨p, hp, r, hr, hfail⟩ := exists_of_resolveAll_eq_error (prune_eq_error_iff.mp hprune)
    obtain ⟨target, hu, rfl⟩ := href hp hr
    exact ⟨target, hu, ((resolve_eq_error_iff hs).mp hfail).1⟩
  · intro h
    obtain ⟨target, hu, hdoc⟩ := h
    cases hall : resolveAll ps with
    | ok _ =>
      obtain ⟨p, hp, hn⟩ := List.mem_flatMap.mp ((mem_refs_packages hs).mpr ⟨target, hu, rfl⟩)
      exact absurd ((exists_resolve_iff hs).mp (resolveAll_eq_ok_iff.mp hall p hp _ hn)) hdoc
    | error e =>
      obtain ⟨p, hp, r, hr, hfail⟩ := exists_of_resolveAll_eq_error hall
      obtain ⟨-, rfl⟩ := (resolve_eq_error_iff hs).mp hfail
      exact ⟨r, prune_eq_error_iff.mpr hall⟩

/-- A name that nothing declares is written as it is. It resolves only where a declaration has it
as its documented name; elsewhere pruning fails for a name without documentation. -/
theorem undeclared_reported_iff (hs : s.packages = .ok ps) {f : File} {target : String}
    (hf : f ∈ s.files) (hnames : f.Names target)
    (hundeclared : ∀ x ∈ s.declared, x.declaration.fullName ≠ target) :
    target ∈ ps.flatMap (·.refs) ∧
      ((Scope.ofPackages ps).resolve target = .error (.unresolved target) ↔
        ¬ s.Documents target) ∧
      ((∃ n, prune ps = .error (.unresolved n)) ↔
        ¬ s.Documents target ∨
          ∃ other, other ≠ target ∧ s.Uses other ∧ ¬ s.Documents (s.index.flatName other)) := by
  have hu : s.Uses target := uses_of_names hs hf hnames hundeclared
  have hflat : s.index.flatName target = target := flatName_of_undeclared hundeclared
  have hsplit : (∃ other, s.Uses other ∧ ¬ s.Documents (s.index.flatName other)) ↔
      ¬ s.Documents target ∨
        ∃ other, other ≠ target ∧ s.Uses other ∧ ¬ s.Documents (s.index.flatName other) := by
    constructor
    · intro h
      obtain ⟨other, hother, hdoc⟩ := h
      by_cases hsame : other = target
      · rw [hsame, hflat] at hdoc
        exact Or.inl hdoc
      · exact Or.inr ⟨other, hsame, hother, hdoc⟩
    · intro h
      rcases h with hdoc | ⟨other, -, hother, hdoc⟩
      · exact ⟨target, hu, hflat.symm ▸ hdoc⟩
      · exact ⟨other, hother, hdoc⟩
  refine ⟨(mem_refs_packages hs).mpr ⟨target, hu, hflat.symm⟩, ?_, ?_⟩
  · rw [resolve_eq_error_iff hs]
    exact and_iff_left rfl
  · rw [prune_unresolved_iff hs, hsplit]

private theorem names_orderFile {target : String} (hbasic : ¬ IsBasic target) :
    (orderFile target).Names target := by
  have hm : .message (orderMessage target) ∈ (orderFile target).documented := List.mem_cons_self
  exact .field hm List.mem_cons_self (Or.inr ⟨rfl, hbasic⟩)

theorem undeclared_reported_shop :
    ¬ (shop "shop.Ghost").Documents "shop.Ghost" ∧
      ∃ n, prune (shopPackages "shop.Ghost") = .error (.unresolved n) := by
  have hs : (shop "shop.Ghost").packages = .ok (shopPackages "shop.Ghost") :=
    packages_shop (by cbv)
  have hnames : (orderFile "shop.Ghost").Names "shop.Ghost" := names_orderFile (by decide)
  obtain ⟨-, hresolve, hprune⟩ :=
    undeclared_reported_iff hs List.mem_cons_self hnames (by decide)
  have hdoc : ¬ (shop "shop.Ghost").Documents "shop.Ghost" := hresolve.mp (by cbv)
  exact ⟨hdoc, hprune.mpr (Or.inl hdoc)⟩

/-- A name that nothing declares, but under which a declaration inside a message is documented, is
not reported. -/
theorem undeclared_unreported_shop :
    (shop "shop.Line").packages = .ok (shopPackages "shop.Line") ∧
      (orderFile "shop.Line").Names "shop.Line" ∧
      (∀ x ∈ (shop "shop.Line").declared, x.declaration.fullName ≠ "shop.Line") ∧
      prune (shopPackages "shop.Line") =
        .ok ((shopPackages "shop.Line").map (·.restrict KeyMap.empty), KeyMap.empty) := by
  have hroots : (shopPackages "shop.Line").flatMap (·.roots) = [] := rfl
  refine ⟨packages_shop (by cbv), names_orderFile (by decide), by decide, ?_⟩
  refine prune_eq_ok_iff.mpr ⟨by cbv, ?_, rfl⟩
  rw [reachable, hroots, Scope.walk]

end Schema
end SchemaDocs
