import SchemaDocs.Schema.Json
import SchemaDocs.Proofs.Json.Record

/-!
# Schemas read back

A written schema is read again as it was, unless it opens more containers than the reader allows:
what is left out of a record is what its reader supplies.
-/

namespace SchemaDocs.Schema
open Json (Reader Value)
open Json.Reader (Reads reads_record reads_filled reads_list)

/-- Induction over a message and those declared inside it. -/
@[elab_as_elim]
theorem Message.induction {P : Message → Prop}
    (mk : ∀ m : Message, (∀ inner ∈ m.messages, P inner) → P m) (m : Message) : P m :=
  @Message.rec P (fun ms => ∀ m ∈ ms, P m) (fun _ _ _ _ _ _ _ ih => mk _ ih) (by simp)
    (fun _ _ hm hms => List.forall_mem_cons.mpr ⟨hm, hms⟩) m

private theorem messagesToJson_eq (ms : List Message) :
    messagesToJson ms = ms.map Message.toJson := by
  induction ms with
  | nil => rfl
  | cons m ms ih => rw [messagesToJson, ih, List.map_cons]

/-! ## Slots -/

theorem Field.toJson_eq (f : Field) :
    f.toJson = .object (Value.filled
      [("name", some (.text f.name)), ("json_name", f.jsonName.map .text),
        ("description", some (.text f.description)), ("kind", some (.text f.kind.word)),
        ("cardinality", some (.text f.cardinality.word)), ("type_name", f.typeName.map .text),
        ("map", if f.isMap then some (.bool true) else none)]) := by
  obtain ⟨name, jsonName, description, kind, cardinality, typeName, isMap⟩ := f
  cases jsonName <;> cases typeName <;> cases isMap <;> rfl

theorem Message.toJson_eq (m : Message) :
    m.toJson = .object (Value.filled
      [("name", some (.text m.name)), ("full_name", some (.text m.fullName)),
        ("description", some (.text m.description)),
        ("fields", some (.array (m.fields.map Field.toJson))),
        ("messages", some (.array (m.messages.map Message.toJson))),
        ("enums", some (.array (m.enums.map Enum.toJson))),
        ("map_entry", if m.isMapEntry then some (.bool true) else none)]) := by
  obtain ⟨name, fullName, description, fields, messages, enums, isMapEntry⟩ := m
  rw [Message.toJson, messagesToJson_eq]
  cases isMapEntry <;> rfl

private theorem Binding.toJson_eq (b : Binding) :
    b.toJson = .object (Value.filled
      [("pattern", b.route.map Route.toJson), ("body", b.body.map .text)]) := by
  obtain ⟨route, body⟩ := b
  cases route <;> cases body <;> rfl

private theorem Method.toJson_eq (m : Method) :
    m.toJson = .object (Value.filled
      [("name", some (.text m.name)), ("description", some (.text m.description)),
        ("input_type", some (.text m.input)), ("output_type", some (.text m.output)),
        ("client_streaming", some (.bool m.clientStreaming)),
        ("server_streaming", some (.bool m.serverStreaming)),
        ("http", m.http.map Binding.toJson)]) := by
  obtain ⟨name, description, input, output, clientStreaming, serverStreaming, http⟩ := m
  cases http <;> rfl

theorem File.toJson_eq (f : File) :
    f.toJson = .object (Value.filled
      [("name", some (.text f.name)), ("package", some (.text f.package)),
        ("display_name", f.displayName.map .text), ("description", some (.text f.description)),
        ("enums", some (.array (f.enums.map Enum.toJson))),
        ("messages", some (.array (f.messages.map Message.toJson))),
        ("services", some (.array (f.services.map Service.toJson))),
        ("generate", some (.bool f.generate))]) := by
  obtain ⟨name, package, displayName, description, enums, messages, services, generate⟩ := f
  rw [File.toJson, messagesToJson_eq]
  cases displayName <;> rfl

private theorem Route.toJson_ne_null (r : Route) : r.toJson ≠ .null := by
  cases r <;> exact Value.noConfusion

private theorem Binding.toJson_ne_null (b : Binding) : b.toJson ≠ .null := Value.noConfusion

/-! ## Plain values -/

private theorem Field.toJson_plain (f : Field) : f.toJson.Plain := by
  rw [Field.toJson_eq]
  apply Value.plain_filled
  simp

private theorem EnumValue.toJson_plain (v : EnumValue) : v.toJson.Plain := by
  apply Value.plain_record
  simp

private theorem Enum.toJson_plain (e : Enum) : e.toJson.Plain := by
  have hvalues := Value.plain_list fun v (_ : v ∈ e.values) => v.toJson_plain
  apply Value.plain_record
  simpa using hvalues

private theorem Message.toJson_plain (m : Message) : m.toJson.Plain := by
  induction m using Message.induction with
  | mk m ih =>
    have hfields := Value.plain_list fun f (_ : f ∈ m.fields) => f.toJson_plain
    have hmessages := Value.plain_list ih
    have henums := Value.plain_list fun e (_ : e ∈ m.enums) => e.toJson_plain
    rw [Message.toJson_eq]
    apply Value.plain_filled
    simpa using ⟨hfields, hmessages, henums⟩

private theorem Route.toJson_plain (r : Route) : r.toJson.Plain := by
  cases r with
  | custom verb path =>
    have hinner : (Value.record [("kind", .text verb), ("path", .text path)]).Plain := by
      apply Value.plain_record
      simp
    apply Value.plain_record
    simpa using hinner
  | _ =>
    apply Value.plain_record
    simp

private theorem Binding.toJson_plain (b : Binding) : b.toJson.Plain := by
  have hroute : ∀ r ∈ b.route, r.toJson.Plain := fun r _ => r.toJson_plain
  rw [Binding.toJson_eq]
  apply Value.plain_filled
  simpa using hroute

private theorem Method.toJson_plain (m : Method) : m.toJson.Plain := by
  have hhttp : ∀ b ∈ m.http, b.toJson.Plain := fun b _ => b.toJson_plain
  rw [Method.toJson_eq]
  apply Value.plain_filled
  simpa using hhttp

private theorem Service.toJson_plain (s : Service) : s.toJson.Plain := by
  have hmethods := Value.plain_list fun m (_ : m ∈ s.methods) => m.toJson_plain
  apply Value.plain_record
  simpa using hmethods

private theorem File.toJson_plain (f : File) : f.toJson.Plain := by
  have henums := Value.plain_list fun e (_ : e ∈ f.enums) => e.toJson_plain
  have hmessages := Value.plain_list fun m (_ : m ∈ f.messages) => m.toJson_plain
  have hservices := Value.plain_list fun s (_ : s ∈ f.services) => s.toJson_plain
  rw [File.toJson_eq]
  apply Value.plain_filled
  simpa using ⟨henums, hmessages, hservices⟩

theorem toJson_plain (s : Schema) : s.toJson.Plain := by
  have hfiles := Value.plain_list fun f (_ : f ∈ s.files) => f.toJson_plain
  apply Value.plain_record
  simpa using hfiles

/-! ## Readers -/

private theorem Field.reads (f : Field) : Reads Field.read f.toJson f := by
  rw [Field.toJson_eq]
  exact reads_filled _ rfl (by decide) fun depth => by
    simp [Kind.ofWord_word, Cardinality.ofWord?_word]

private theorem EnumValue.reads (v : EnumValue) : Reads EnumValue.read v.toJson v :=
  reads_record rfl (by decide) fun depth => by simp

private theorem Enum.reads (e : Enum) : Reads Enum.read e.toJson e :=
  reads_record rfl (by decide) fun depth => by
    simp [reads_list (fun v (_ : v ∈ e.values) => v.reads) depth]

private theorem Message.readList_eq : Message.readList = .list Message.read := by
  funext depth v
  cases depth with
  | zero => rfl
  | succ depth => cases v <;> rfl

private theorem Message.read_eq : Message.read =
    .enter fun depth => Message.readParts (Reader.list Message.read depth) depth := by
  funext depth v
  cases depth with
  | zero => rfl
  | succ depth => rw [Message.read, readList_eq, Reader.enter]

private theorem Message.reads (m : Message) : Reads Message.read m.toJson m := by
  induction m using Message.induction with
  | mk m ih =>
    rw [Message.read_eq, Message.toJson_eq]
    exact reads_filled _ rfl (by decide) fun depth => by
      simp [reads_list (fun f (_ : f ∈ m.fields) => f.reads) depth, reads_list ih depth,
        reads_list (fun e (_ : e ∈ m.enums) => e.reads) depth, ite_and]
      cases m
      rfl

private theorem Route.readCustom_reads (verb path : String) :
    Reads Route.readCustom (.record [("kind", .text verb), ("path", .text path)])
      (.custom verb path) :=
  reads_record rfl (by decide) fun depth => by simp

private theorem Route.reads (r : Route) : Reads Route.read r.toJson r := by
  intro depth
  cases depth with
  | zero => cases r <;> rfl
  | succ depth =>
    cases r with
    | custom verb path =>
      have hnesting : (custom verb path).toJson.nesting ≤ depth + 1 ↔
          (Value.record [("kind", .text verb), ("path", .text path)]).nesting ≤ depth :=
        Value.nesting_record_le_succ.trans List.forall_mem_singleton
      rw [if_congr hnesting rfl rfl]
      exact Route.readCustom_reads verb path depth
    | _ => exact (if_pos (by simp [toJson])).symm

private theorem Binding.reads (b : Binding) : Reads Binding.read b.toJson b := by
  rw [Binding.toJson_eq]
  exact reads_filled _ rfl (by decide) fun depth => by
    have hroute := Reader.optional_reads (o := b.route) (fun r _ => r.toJson_ne_null)
      (fun r _ => r.reads) depth
    simp [hroute]

private theorem Method.reads (m : Method) : Reads Method.read m.toJson m := by
  rw [Method.toJson_eq]
  exact reads_filled _ rfl (by decide) fun depth => by
    have hhttp := Reader.optional_reads (o := m.http) (fun b _ => b.toJson_ne_null)
      (fun b _ => b.reads) depth
    simp [hhttp]

private theorem Service.reads (s : Service) : Reads Service.read s.toJson s :=
  reads_record rfl (by decide) fun depth => by
    simp [reads_list (fun m (_ : m ∈ s.methods) => m.reads) depth]

private theorem File.reads (f : File) : Reads File.read f.toJson f := by
  rw [File.toJson_eq]
  exact reads_filled _ rfl (by decide) fun depth => by
    simp [reads_list (fun e (_ : e ∈ f.enums) => e.reads) depth,
      reads_list (fun m (_ : m ∈ f.messages) => m.reads) depth,
      reads_list (fun s (_ : s ∈ f.services) => s.reads) depth, ite_and]

theorem reads (s : Schema) : Reads read s.toJson s :=
  reads_record rfl (by decide) fun depth => by
    simp [reads_list (fun f (_ : f ∈ s.files) => f.reads) depth]

end SchemaDocs.Schema
