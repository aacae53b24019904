import SchemaDocs.Doc.Json
import SchemaDocs.Proofs.Json.Record
import SchemaDocs.Proofs.KeyMap

/-!
# Documentation trees read back

A written package or chapter is read again as it was, unless it opens more containers than the
reader allows. A type is first checked as a whole and then taken apart by its form.
-/

namespace SchemaDocs.Doc
open Json (Reader Value)
open Json.Reader (Reads reads_record reads_list)

/-- Induction over a type and the types of its fields. -/
@[elab_as_elim]
theorem TypeDoc.induction {P : TypeDoc → Prop}
    (message : ∀ name description fields, (∀ f ∈ fields, P f.type) →
      P (.message name description fields))
    (enum : ∀ name description values, P (.enum name description values))
    (ref : ∀ name, P (.ref name))
    (map : ∀ key value, P key → P value → P (.map key value))
    (array : ∀ item, P item → P (.array item))
    (basic : ∀ name sample, P (.basic name sample)) (t : TypeDoc) : P t :=
  @TypeDoc.rec P (fun f => P f.type) (fun fs => ∀ f ∈ fs, P f.type) message enum ref map array basic
    (fun _ _ _ ih => ih) (by simp) (fun _ _ hf hfs => List.forall_mem_cons.mpr ⟨hf, hfs⟩) t

def Field.toJson (f : Field) : Value :=
  .record [("name", .text f.name), ("description", .text f.description), ("type", f.type.toJson)]

private theorem fieldsToJson_eq (fs : List Field) : fieldsToJson fs = fs.map Field.toJson := by
  induction fs with
  | nil => rfl
  | cons f fs ih =>
    cases f
    rw [fieldsToJson, ih]
    rfl

/-- What holds of texts, and of arrays and records of values of which it holds, holds of every
written type. -/
theorem TypeDoc.of_toJson {P : Value → Prop} (text : ∀ s, P (.text s))
    (array : ∀ vs : List Value, (∀ v ∈ vs, P v) → P (.array vs))
    (record : ∀ ms : List (String × Value), (∀ m ∈ ms, P m.2) → P (.record ms)) (t : TypeDoc) :
    P t.toJson := by
  induction t using TypeDoc.induction with
  | message name description fields ih =>
    have hfields : P (.array (fields.map Field.toJson)) := by
      refine array _ (List.forall_mem_map.mpr fun f hf => record _ ?_)
      simpa [text] using ih f hf
    rw [TypeDoc.toJson, fieldsToJson_eq]
    apply record
    simpa [text] using hfields
  | enum name description values =>
    have hvalues : P (.array (values.map EnumValue.toJson)) := by
      refine array _ (List.forall_mem_map.mpr fun v _ => record _ ?_)
      simp [text]
    apply record
    simpa [text] using hvalues
  | ref name =>
    apply record
    simp [text]
  | map key value hkey hvalue =>
    apply record
    simpa [text] using ⟨hkey, hvalue⟩
  | array item hitem =>
    apply record
    simpa [text] using hitem
  | basic name sample =>
    apply record
    simp [text]

/-! ## Plain values -/

private theorem TypeDoc.toJson_plain (t : TypeDoc) : t.toJson.Plain :=
  t.of_toJson .text (fun _ => .array) fun _ => Value.plain_record

private theorem Endpoint.toJson_plain (e : Endpoint) : e.toJson.Plain := by
  have hbody : (Value.optional .text e.bodyField).Plain := by
    cases e.bodyField with
    | none => exact .null
    | some s => exact .text s
  apply Value.plain_record
  simpa using ⟨hbody, e.request.toJson_plain, e.response.toJson_plain⟩

private theorem Service.toJson_plain (s : Service) : s.toJson.Plain := by
  have hendpoints := Value.plain_list fun e (_ : e ∈ s.endpoints) => e.toJson_plain
  apply Value.plain_record
  simpa using hendpoints

theorem Package.toJson_plain (p : Package) : p.toJson.Plain := by
  have hservices := Value.plain_list fun s (_ : s ∈ p.services) => s.toJson_plain
  have htypes : (Value.record (p.types.map fun _ t => t.toJson).entries).Plain :=
    Value.plain_record (List.forall_mem_map.mpr fun e _ => e.2.toJson_plain)
  apply Value.plain_record
  simpa using ⟨hservices, htypes⟩

theorem Chapter.toJson_plain (c : Chapter) : c.toJson.Plain := by
  have hpackages := Value.plain_list fun p (_ : p ∈ c.packages) => p.toJson_plain
  apply Value.plain_record
  simpa using hpackages

/-! ## Types read back -/

/-- How legible a value is only depends on how deep it nests. -/
def Legible (v : Value) : Prop := ∀ depth, v.isLegible depth = decide (v.nesting ≤ depth)

private theorem legible_text (s : String) : Legible (.text s) := fun _ => rfl

private theorem legible_array {vs : List Value} (h : ∀ v ∈ vs, Legible v) :
    Legible (.array vs) := by
  intro depth
  cases depth with
  | zero => simp [Value.isLegible, Value.nesting]
  | succ depth =>
    have hitems : Value.areLegible depth vs = decide (∀ v ∈ vs, v.nesting ≤ depth) := by
      induction vs with
      | nil => rfl
      | cons v vs ih =>
        obtain ⟨hv, hvs⟩ := List.forall_mem_cons.mp h
        simp [Value.areLegible, hv depth, ih hvs]
    simpa [Value.isLegible] using hitems

private theorem legible_record {members : List (String × Value)} (h : ∀ m ∈ members, Legible m.2) :
    Legible (.record members) := by
  intro depth
  cases depth with
  | zero => simp [Value.record, Value.isLegible, Value.nesting]
  | succ depth =>
    have hmembers : Value.areMembersLegible depth (members.map fun m => (some m.1, m.2)) =
        decide (∀ m ∈ members, m.2.nesting ≤ depth) := by
      induction members with
      | nil => rfl
      | cons m members ih =>
        obtain ⟨hm, hms⟩ := List.forall_mem_cons.mp h
        rw [List.map_cons, Value.areMembersLegible, hm depth, ih hms]
        simp only [List.forall_mem_cons, Bool.decide_and, Option.isSome_some, Bool.true_and]
    rw [decide_eq_decide.mpr Value.nesting_record_le_succ, ← hmembers]
    rfl

private theorem TypeDoc.legible (t : TypeDoc) : Legible t.toJson :=
  t.of_toJson legible_text (fun _ => legible_array) fun _ => legible_record

private theorem split?_record (inner : Bool) {form : String} {members : List (String × Value)}
    (h : ∀ m ∈ members, m.1 ≠ "type") :
    TypeDoc.split? inner (.record (("type", .text form) :: members)) =
      some (form, .record members) := by
  have hnot : ∀ m ∈ members.map fun m => (some m.1, m.2), m.1 ≠ some "type" :=
    List.forall_mem_map.mpr fun m hm heq => h m hm (Option.some.inj heq)
  have htype : (members.map fun m => (some m.1, m.2)).filter (·.1 == some "type") = [] :=
    List.filter_eq_nil_iff.mpr fun m hm => by simpa using hnot m hm
  have hrest : (members.map fun m => (some m.1, m.2)).filter (·.1 != some "type") =
      members.map fun m => (some m.1, m.2) :=
    List.filter_eq_self.mpr fun m hm => by simpa using hnot m hm
  simp [TypeDoc.split?, TypeDoc.split?.form?, Value.record, Value.text, Value.member?, htype, hrest]

private theorem EnumValue.reads (v : EnumValue) : Reads EnumValue.read v.toJson v :=
  reads_record rfl (by decide) fun depth => by simp

private theorem TypeDoc.exists_eq_succ {t : TypeDoc} {depth : Nat} (h : t.toJson.nesting ≤ depth) :
    ∃ inner, depth = inner + 1 := by
  have hpos : 0 < t.toJson.nesting := by
    cases t <;> exact Nat.succ_pos _
  exact Nat.exists_eq_succ_of_ne_zero (Nat.ne_of_gt (Nat.lt_of_lt_of_le hpos h))

/-- A type is read when it nests no deeper than allowed. -/
theorem TypeDoc.readLegible_toJson (inner : Bool) {t : TypeDoc} {depth : Nat}
    (h : t.toJson.nesting ≤ depth) : TypeDoc.readLegible inner depth t.toJson = some t := by
  induction t using TypeDoc.induction generalizing inner depth with
  | message name description fields ih =>
    obtain ⟨depth, rfl⟩ := exists_eq_succ h
    have hfields : (Value.array (fieldsToJson fields)).nesting ≤ depth := by
      simpa [toJson] using h
    rw [fieldsToJson_eq] at hfields
    rw [toJson, fieldsToJson_eq, readLegible, split?_record inner (by simp)]
    have hparts : (Value.record [("name", .text name), ("description", .text description),
        ("fields", .array (fields.map Field.toJson))]).fields? ["name", "description", "fields"] =
        some [some (.text name), some (.text description),
          some (.array (fields.map Field.toJson))] := Value.fields?_record rfl (by decide)
    simp only [Option.bind_eq_bind, Option.bind_some, hparts, Reader.required_some,
      Reader.text_text]
    rw [Value.mapM_map_eq_some (k := id) fun f hf => ?_, List.map_id]
    · rfl
    · have hfield : f.toJson.nesting < (Value.array (fields.map Field.toJson)).nesting :=
        Value.nesting_lt_array (List.mem_map_of_mem hf)
      have htype : f.type.toJson.nesting < f.toJson.nesting :=
        Value.nesting_lt_record (m := ("type", f.type.toJson)) (by simp)
      have hread := ih f hf true (by omega : f.type.toJson.nesting ≤ depth)
      obtain ⟨fieldName, fieldDescription, type⟩ := f
      simp only [Field.type] at hread
      simp [Field.toJson, Field.name, Field.description, Field.type, Value.fields?_record, hread]
  | enum name description values =>
    obtain ⟨depth, rfl⟩ := exists_eq_succ h
    have hdepth : (Value.array (values.map EnumValue.toJson)).nesting ≤ depth := by
      simpa [toJson] using h
    have hvalues := reads_list (fun v (_ : v ∈ values) => v.reads) depth
    rw [if_pos hdepth] at hvalues
    rw [toJson, readLegible, split?_record inner (by simp)]
    simp [Value.fields?_record, hvalues]
  | ref name =>
    obtain ⟨depth, rfl⟩ := exists_eq_succ h
    rw [toJson, readLegible, split?_record inner (by simp)]
    simp [Value.fields?_record]
  | map key value hkey hvalue =>
    obtain ⟨depth, rfl⟩ := exists_eq_succ h
    obtain ⟨hk, hv⟩ : key.toJson.nesting ≤ depth ∧ value.toJson.nesting ≤ depth := by
      simpa [toJson] using h
    rw [toJson, readLegible, split?_record inner (by simp)]
    simp [Value.fields?_record, hkey true hk, hvalue true hv]
  | array item hitem =>
    obtain ⟨depth, rfl⟩ := exists_eq_succ h
    have hi : item.toJson.nesting ≤ depth := by simpa [toJson] using h
    rw [toJson, readLegible, split?_record inner (by simp)]
    simp [Value.fields?_record, hitem true hi]
  | basic name sample =>
    obtain ⟨depth, rfl⟩ := exists_eq_succ h
    rw [toJson, readLegible, split?_record inner (by simp)]
    simp [Value.fields?_record]

private theorem TypeDoc.reads (t : TypeDoc) : Reads TypeDoc.read t.toJson t := by
  intro depth
  rw [TypeDoc.read, t.legible depth]
  by_cases h : t.toJson.nesting ≤ depth
  · rw [if_pos (decide_eq_true h), if_pos h, readLegible_toJson false h]
  · rw [if_neg (by simpa using h), if_neg h]

/-! ## Packages and chapters read back -/

private theorem Endpoint.reads (e : Endpoint) : Reads Endpoint.read e.toJson e :=
  reads_record rfl (by decide) fun depth => by
    have hbody : Reader.optional .text depth (some (Value.optional .text e.bodyField)) =
        some e.bodyField := by
      cases e.bodyField <;> rfl
    have hnesting : (Value.optional .text e.bodyField).nesting = 0 := by
      cases e.bodyField <;> rfl
    simp [hbody, hnesting, e.request.reads depth, e.response.reads depth, ite_and]

private theorem Service.reads (s : Service) : Reads Service.read s.toJson s :=
  reads_record rfl (by decide) fun depth => by
    simp [reads_list (fun e (_ : e ∈ s.endpoints) => e.reads) depth]

private theorem reads_types (types : KeyMap TypeDoc) :
    Reads readTypes (.record (types.entries.map fun e => (e.1, e.2.toJson))) types := by
  intro depth
  cases depth with
  | zero => exact (if_neg Value.not_nesting_record_le_zero).symm
  | succ depth =>
    have hentries : ((types.entries.map fun e => (e.1, e.2.toJson)).map
          fun m => (some m.1, m.2)).mapM (fun m : Option String × Value => do
            return (← m.1, ← TypeDoc.read depth m.2)) =
        if ∀ e ∈ types.entries, e.2.toJson.nesting ≤ depth then some types.entries else none := by
      rw [List.map_map]
      exact Reader.mapM_guarded fun e _ => by simp [e.2.reads depth]
    simp only [Value.nesting_record_le_succ, List.forall_mem_map]
    change (_ >>= fun entries => some (KeyMap.ofList entries)) = _
    rw [hentries, Option.bind_eq_bind, Reader.bind_guarded, KeyMap.ofList_entries]

theorem Package.reads (p : Package) : Reads Package.read p.toJson p :=
  reads_record rfl (by decide) fun depth => by
    simp [reads_list (fun s (_ : s ∈ p.services) => s.reads) depth, reads_types p.types depth,
      ite_and]

theorem Chapter.reads (c : Chapter) : Reads Chapter.read c.toJson c :=
  reads_record rfl (by decide) fun depth => by
    simp [reads_list (fun p (_ : p ∈ c.packages) => p.reads) depth]

end SchemaDocs.Doc
