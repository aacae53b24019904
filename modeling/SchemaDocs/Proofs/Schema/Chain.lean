import SchemaDocs.Phase
import SchemaDocs.Proofs.Doc.Json
import SchemaDocs.Proofs.Reference
import SchemaDocs.Proofs.Schema.Json

/-!
# Chains of map entries

The entries of map fields stand side by side in a schema, but each may hold a map of the next. So a
flat schema becomes packages that nest as deep as the chain is long.
-/

namespace SchemaDocs.Schema

open Conversion
open Doc (TypeDoc Package)
open Json (Value)

/-- The name of an entry message, by the number of entries behind it. -/
def entryName (n : Nat) : String := String.ofList (List.replicate (n + 1) 'e')

/-- A field of so many maps inside each other. -/
def mapField : Nat → Field
  | 0 => ⟨"value", some "value", "", .string, .optional, none, false⟩
  | n + 1 => ⟨"value", some "value", "", .message, .repeated, some (entryName n), true⟩

/-- The entry message for a map of so many maps inside each other. -/
def mapEntry (n : Nat) : Message :=
  ⟨entryName n, entryName n, "", [⟨"key", none, "", .string, .optional, none, false⟩, mapField n],
    [], [], true⟩

/-- A message with one field, of so many maps inside each other. -/
def mapOwner (n : Nat) : Message := ⟨"Owner", "Owner", "", [mapField n], [], [], false⟩

def chainFile (n : Nat) : File :=
  ⟨"chain.proto", "", none, "", [], mapOwner n :: (List.range n).map mapEntry, [], true⟩

def chain (n : Nat) : Schema := ⟨[chainFile n]⟩

/-- The documentation of so many maps inside each other. -/
def mapType : Nat → TypeDoc
  | 0 => .basic "String" ""
  | n + 1 => .map (.basic "String" "") (mapType n)

private theorem entryName_injective : Function.Injective entryName := by
  intro m n h
  have hlength := congrArg (·.toList.length) h
  simpa [entryName] using hlength

private theorem declarationsOf_entries (l : List Nat) :
    declarationsOf (l.map mapEntry) = l.map fun i => .message (mapEntry i) := by
  induction l with
  | nil => rfl
  | cons i l ih => simp [declarationsOf, ih, mapEntry, Message.declarations]

private theorem documentedOf_entries (l : List Nat) : documentedOf (l.map mapEntry) = [] := by
  induction l with
  | nil => rfl
  | cons i l ih => simp [documentedOf, ih, mapEntry, Message.documented]

private theorem declared_chain (n : Nat) : (chain n).declared =
    ⟨"", .message (mapOwner n)⟩ :: (List.range n).map fun i => ⟨"", .message (mapEntry i)⟩ := by
  simp [declared, chain, chainFile, File.declarations, declarationsOf, declarationsOf_entries,
    mapOwner, Message.declarations]

private theorem message?_chain {n i : Nat} (hi : i < n) :
    (chain n).index.message? (entryName i) = some (mapEntry i) := by
  have hnames : ((chain n).declared.map (·.declaration.fullName)).Nodup := by
    have hentries : ((List.range n).map entryName).Nodup :=
      List.nodup_range.map entryName_injective
    have howner : ∀ i, entryName i ≠ "Owner" := by
      intro i h
      have hhead := congrArg (·.toList.head?) h
      simp [entryName, List.replicate_succ] at hhead
    rw [declared_chain]
    simpa [Function.comp_def, Declaration.fullName, mapOwner, mapEntry, howner] using hentries
  have hmem : ⟨"", .message (mapEntry i)⟩ ∈ (chain n).declared := by
    rw [declared_chain]
    exact List.mem_cons_of_mem _ (List.mem_map.mpr ⟨i, List.mem_range.mpr hi, rfl⟩)
  have hfind : (chain n).index.find? (entryName i) = some ⟨"", .message (mapEntry i)⟩ :=
    find?_of_mem hnames hmem
  rw [Index.message?, hfind]

private theorem typeWithin_chain {n k depth : Nat} (hk : k ≤ n) (hdepth : k ≤ depth) :
    typeWithin (chain n).index depth (mapField k) = .ok (mapType k) := by
  induction k generalizing depth with
  | zero => exact (typeWithin_of_not_map rfl).mpr ⟨_, rfl, rfl⟩
  | succ k ih =>
    obtain ⟨depth, rfl⟩ := Nat.exists_eq_add_of_le' hdepth
    have hkey : typeWithin (chain n).index (depth + k)
        ⟨"key", none, "", .string, .optional, none, false⟩ = .ok (.basic "String" "") :=
      (typeWithin_of_not_map rfl).mpr ⟨_, rfl, rfl⟩
    have hvalue := ih (Nat.le_of_succ_le hk) (Nat.le_add_left k depth)
    have hentry : (chain n).index.message? (mapField (k + 1)).target = some (mapEntry k) :=
      message?_chain hk
    exact typeWithin_map rfl hentry rfl hkey hvalue

/-- The documentation of the message that holds the maps. -/
def ownerType (n : Nat) : TypeDoc :=
  .message "Owner" (Comment.longFor "Owner" "")
    [.mk "value" (Comment.shortFor "value" "") (mapType n)]

def chainPackage (n : Nat) : Package :=
  { name := "", id := "", description := "", services := []
    types := KeyMap.empty.insert "Owner" (ownerType n) }

private theorem declaration_mapOwner (n : Nat) :
    declaration (chain n).index (.message (mapOwner n)) = .ok (ownerType n) := by
  have htype : typeOf (chain n).index (mapField n) = .ok (mapType n) := by
    refine typeWithin_chain (Nat.le_refl n) ?_
    change n ≤ (chain n).declared.length
    simp [declared_chain]
  simp only [declaration, mapOwner, List.mapM_cons, field, htype]
  cases n <;> rfl

theorem packages_chain (n : Nat) : (chain n).packages = .ok [chainPackage n] := by
  have hclash : (chain n).clash? = none := by
    have hslots : (chain n).declared.filterMap Declared.slot? = [("", "Owner")] := by
      rw [declared_chain, List.filterMap_cons, List.filterMap_map]
      simp [Declared.slot?, Declaration.isMapEntry, mapOwner, mapEntry, Declaration.name]
    rw [clash?, hslots]
    rfl
  have hordered : (chain n).ordered = [chainFile n] := by
    simp [ordered, chain]
  have hdocumented : (chainFile n).documented = [.message (mapOwner n)] := by
    simp [chainFile, File.documented, documentedOf, documentedOf_entries, mapOwner,
      Message.documented]
  have htypes : typesOf (chain n).index "" [.message (mapOwner n)] =
      .ok (chainPackage n).types := by
    simp only [typesOf, List.foldlM_cons, declaration_mapOwner]
    rfl
  have hpackage : package (chain n).index (chainFile n) = .ok (chainPackage n) :=
    package_eq_ok_iff.mpr ⟨rfl, rfl, rfl, rfl, hdocumented ▸ htypes⟩
  rw [packages_eq_ok_iff, hordered]
  refine ⟨hclash, ?_⟩
  simp [hpackage]

private theorem nesting_mapEntry (i : Nat) : (mapEntry i).toJson.nesting ≤ 3 := by
  rw [Message.toJson_eq, Value.nesting_filled_le_succ]
  cases i <;> simp [mapEntry, mapField, Field.toJson_eq, Value.nesting_filled_le_succ]

private theorem nesting_mapOwner (n : Nat) : (mapOwner n).toJson.nesting ≤ 3 := by
  rw [Message.toJson_eq, Value.nesting_filled_le_succ]
  cases n <;> simp [mapOwner, mapField, Field.toJson_eq, Value.nesting_filled_le_succ]

theorem nesting_chain (n : Nat) : (chain n).toJson.nesting ≤ 7 := by
  rw [toJson, Value.nesting_record_le_succ]
  simp [chain, chainFile, File.toJson_eq, Value.nesting_filled_le_succ, nesting_mapOwner,
    nesting_mapEntry]

private theorem nesting_mapType (n : Nat) : (mapType n).toJson.nesting = n + 1 := by
  induction n with
  | zero => rfl
  | succ n ih =>
    simp [mapType, TypeDoc.toJson, Value.record, Value.nesting, Value.membersNesting, ih]

/-- The document of a chain's packages nests deeper than the chain is long. -/
theorem nesting_chainPackage (n : Nat) : (packagesJson [chainPackage n]).nesting = n + 7 := by
  have howner : (ownerType n).toJson.nesting = n + 4 := by
    simp [ownerType, TypeDoc.toJson, Doc.fieldsToJson, Value.record, Value.nesting,
      Value.membersNesting, Value.itemsNesting, nesting_mapType]
  have htypes : ((chainPackage n).types.map fun _ t => t.toJson).entries =
      [("Owner", (ownerType n).toJson)] := rfl
  have hservices : ((chainPackage n).services.map Doc.Service.toJson) = [] := rfl
  simp only [packagesJson, Package.toJson, htypes, hservices, List.map_cons, List.map_nil]
  simp [Value.record, Value.nesting, Value.membersNesting, Value.itemsNesting, howner]

theorem refs_chainPackage (n : Nat) : (chainPackage n).refs = [] := by
  have hmap : (mapType n).refs = [] := by
    induction n with
    | zero => rfl
    | succ n ih => rw [mapType, TypeDoc.refs, ih, TypeDoc.refs, List.append_nil]
  have howner : (ownerType n).refs = [] := by
    rw [ownerType, TypeDoc.refs, TypeDoc.fieldRefs, hmap, TypeDoc.fieldRefs, List.append_nil]
  have hvalues : (chainPackage n).types.values = [ownerType n] := rfl
  have hroots : (chainPackage n).roots = [] := rfl
  simp [Package.refs, hvalues, hroots, howner]

end SchemaDocs.Schema
