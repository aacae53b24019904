import SchemaDocs.Proofs.Conversion

/-!
# Mentions of types

Where a file names a type, and where the package of the file refers to one: in a field of a
message, behind keys and values of maps, and in the request and the response of a method that is
bound to HTTP. Conversion keeps places: what a package refers to somewhere is the documented name of
what the file names there. Main statements: `refAt_package_iff`, `mem_refs_iff_refAt`.
-/

namespace SchemaDocs

open Doc (TypeDoc Package)
open Schema (Index File IsBasic)

namespace Conversion

/-- The two types inside a map. -/
inductive Half where
  | key
  | value
deriving DecidableEq

/-- The two messages of a method. -/
inductive Side where
  | request
  | response
deriving DecidableEq

/-- A place in a file and in the package of the file. -/
inductive Mention where
  /-- The field at a position of the message of the given name, and in it what the halves of maps
  lead to. -/
  | field (message : String) (position : Nat) (halves : List Half)
  /-- A method is known by its position among those of its service that are bound to HTTP. -/
  | method (service position : Nat) (side : Side)
deriving DecidableEq

end Conversion

open Conversion (Half Side Mention)

namespace Doc

/-- The reference to which the halves of maps lead, if it is one; in an array it is that of the
items. -/
def TypeDoc.refAt : TypeDoc → List Half → Option String
  | .ref n, [] => some n
  | .array item, halves => item.refAt halves
  | .map key _, .key :: halves => key.refAt halves
  | .map _ value, .value :: halves => value.refAt halves
  | _, _ => none

/-- The reference in a field of a message. -/
def TypeDoc.fieldRefAt (position : Nat) (halves : List Half) : TypeDoc → Option String
  | .message _ _ fields => fields[position]?.bind (·.type.refAt halves)
  | _ => none

/-- The type of one side of an endpoint. -/
def Endpoint.typeOf (e : Endpoint) : Side → TypeDoc
  | .request => e.request
  | .response => e.response

def Package.endpointAt? (p : Package) (service position : Nat) : Option Endpoint :=
  p.services[service]?.bind (·.endpoints[position]?)

/-- The reference at a place. -/
def Package.refAt (p : Package) : Mention → Option String
  | .field message position halves => (p.types.get? message).bind (·.fieldRefAt position halves)
  | .method service position side =>
    (p.endpointAt? service position).bind fun e => (e.typeOf side).refAt []

end Doc

namespace Schema

/-- The full name of the message on one side of a method. -/
def Method.targetOf (m : Method) : Side → String
  | .request => m.input
  | .response => m.output

/-- The methods of a service that are bound to HTTP. -/
def Service.bound (s : Service) : List Method := s.methods.filter (·.http.isSome)

/-- A field names a type for the place to which the halves of maps lead. -/
inductive Field.UsesAt (ix : Index) : Field → List Half → String → Prop
  | enum {f : Field} : f.isMap = false → f.kind = .enum → UsesAt ix f [] f.target
  | message {f : Field} :
    f.isMap = false → f.kind = .message → ¬ IsBasic f.target → UsesAt ix f [] f.target
  | key {f key value : Field} {m : Message} {rest : List Field} {halves : List Half}
    {target : String} :
    f.isMap = true → ix.message? f.target = some m → m.fields = key :: value :: rest →
      UsesAt ix key halves target → UsesAt ix f (.key :: halves) target
  | value {f key value : Field} {m : Message} {rest : List Field} {halves : List Half}
    {target : String} :
    f.isMap = true → ix.message? f.target = some m → m.fields = key :: value :: rest →
      UsesAt ix value halves target → UsesAt ix f (.value :: halves) target

/-- A file names a type at a place. -/
inductive File.UsesAt (ix : Index) (f : File) : Mention → String → Prop
  | field {m : Message} {fd : Field} {position : Nat} {halves : List Half} {target : String} :
    .message m ∈ f.documented → m.fields[position]? = some fd → fd.UsesAt ix halves target →
      UsesAt ix f (.field m.name position halves) target
  | method {s : Service} {m : Method} {i k : Nat} {side : Side} :
    f.services[i]? = some s → s.bound[k]? = some m → ¬ IsBasic (m.targetOf side) →
      UsesAt ix f (.method i k side) (m.targetOf side)

variable {ix : Index} {target : String}

private theorem Field.uses_iff_usesAt {f : Field} :
    f.Uses ix target ↔ ∃ halves, f.UsesAt ix halves target := by
  constructor
  · intro h
    induction h with
    | enum hmap hkind => exact ⟨[], .enum hmap hkind⟩
    | message hmap hkind hbasic => exact ⟨[], .message hmap hkind hbasic⟩
    | key hmap hm hfields _ ih =>
      obtain ⟨halves, hu⟩ := ih
      exact ⟨.key :: halves, .key hmap hm hfields hu⟩
    | value hmap hm hfields _ ih =>
      obtain ⟨halves, hu⟩ := ih
      exact ⟨.value :: halves, .value hmap hm hfields hu⟩
  · intro h
    obtain ⟨halves, hu⟩ := h
    induction hu with
    | enum hmap hkind => exact .enum hmap hkind
    | message hmap hkind hbasic => exact .message hmap hkind hbasic
    | key hmap hm hfields _ ih => exact .key hmap hm hfields ih
    | value hmap hm hfields _ ih => exact .value hmap hm hfields ih

private theorem Service.exists_bound_iff {s : Service} {m : Method} :
    (∃ k : Nat, s.bound[k]? = some m) ↔ m ∈ s.methods ∧ m.http.isSome = true := by
  rw [← List.mem_iff_getElem?, bound, List.mem_filter]

private theorem File.uses_iff_usesAt {f : File} :
    f.Uses ix target ↔ ∃ place, f.UsesAt ix place target := by
  constructor
  · intro h
    cases h with
    | field hm hfd hu =>
      obtain ⟨position, hposition⟩ := List.mem_iff_getElem?.mp hfd
      obtain ⟨halves, hu⟩ := Field.uses_iff_usesAt.mp hu
      exact ⟨_, .field hm hposition hu⟩
    | input hs hm hhttp hbasic =>
      obtain ⟨i, hi⟩ := List.mem_iff_getElem?.mp hs
      obtain ⟨k, hk⟩ := Service.exists_bound_iff.mpr ⟨hm, hhttp⟩
      exact ⟨.method i k .request, .method hi hk hbasic⟩
    | output hs hm hhttp hbasic =>
      obtain ⟨i, hi⟩ := List.mem_iff_getElem?.mp hs
      obtain ⟨k, hk⟩ := Service.exists_bound_iff.mpr ⟨hm, hhttp⟩
      exact ⟨.method i k .response, .method hi hk hbasic⟩
  · intro h
    obtain ⟨place, hu⟩ := h
    cases hu with
    | field hm hposition hu =>
      exact .field hm (List.mem_of_getElem? hposition) (Field.uses_iff_usesAt.mpr ⟨_, hu⟩)
    | @method s m i k side hi hk hbasic =>
      obtain ⟨hm, hhttp⟩ := Service.exists_bound_iff.mp ⟨_, hk⟩
      cases side with
      | request => exact .input (List.mem_of_getElem? hi) hm hhttp hbasic
      | response => exact .output (List.mem_of_getElem? hi) hm hhttp hbasic

end Schema

namespace Conversion

variable {ix : Index} {n : String} {halves : List Half}

private theorem refAt_messageUse {target : String} :
    (messageUse ix target).refAt halves = some n ↔
      halves = [] ∧ ¬ IsBasic target ∧ n = ix.flatName target := by
  unfold messageUse IsBasic
  cases hlookup : basicMessages.lookup target with
  | some name => simp [TypeDoc.refAt]
  | none =>
    cases halves with
    | nil => simp [TypeDoc.refAt, eq_comm]
    | cons half halves => simp [TypeDoc.refAt]

private theorem refAt_elementType {f : Schema.Field} {type : TypeDoc} (hmap : f.isMap = false)
    (h : elementType ix f = .ok type) :
    type.refAt halves = some n ↔ ∃ target, f.UsesAt ix halves target ∧ n = ix.flatName target := by
  have huses (target : String) : f.UsesAt ix halves target ↔
      halves = [] ∧ (f.kind = .enum ∨ f.kind = .message ∧ ¬ IsBasic f.target) ∧
        target = f.target := by
    constructor
    · intro hu
      cases hu with
      | enum _ hkind => exact ⟨rfl, .inl hkind, rfl⟩
      | message _ hkind hbasic => exact ⟨rfl, .inr ⟨hkind, hbasic⟩, rfl⟩
      | key hyes | value hyes => exact absurd hmap (by simp [hyes])
    · intro hu
      obtain ⟨rfl, hkind | ⟨hkind, hbasic⟩, rfl⟩ := hu
      · exact .enum hmap hkind
      · exact .message hmap hkind hbasic
  simp only [huses]
  unfold elementType at h
  split at h
  · rename_i hkind
    cases h
    cases halves with
    | nil => simp [hkind, TypeDoc.refAt, eq_comm]
    | cons half halves => simp [TypeDoc.refAt]
  · rename_i hkind
    cases h
    simp [hkind, refAt_messageUse, and_assoc]
  · rename_i henum hmessage
    split at h
    · cases h
      refine iff_of_false (by simp [TypeDoc.refAt]) ?_
      rintro ⟨target, ⟨-, hkind | ⟨hkind, -⟩, -⟩, -⟩
      · exact henum hkind
      · exact hmessage hkind
    · cases h

private theorem refAt_typeWithin {depth : Nat} {f : Schema.Field} {type : TypeDoc}
    (h : typeWithin ix depth f = .ok type) :
    type.refAt halves = some n ↔ ∃ target, f.UsesAt ix halves target ∧ n = ix.flatName target := by
  induction depth using Nat.strongRecOn generalizing f type halves with
  | ind depth ih =>
    cases hmap : f.isMap with
    | false =>
      obtain ⟨element, helement, rfl⟩ := (typeWithin_of_not_map hmap).mp h
      rw [← refAt_elementType hmap helement]
      split
      · rw [TypeDoc.refAt]
      · rfl
    | true =>
      obtain ⟨depth', m, key, value, rest, k, v, rfl, hm, hfields, hk, hv, rfl⟩ :=
        typeWithin_of_map hmap h
      have hmapped (half : Half) (halves : List Half) (target : String) :
          f.UsesAt ix (half :: halves) target ↔
            (match half with | .key => key | .value => value).UsesAt ix halves target := by
        constructor
        · intro hu
          cases hu with
          | key _ hm' hfields' hu | value _ hm' hfields' hu =>
            rw [hm] at hm'
            cases hm'
            rw [hfields] at hfields'
            cases hfields'
            exact hu
        · intro hu
          cases half with
          | key => exact .key hmap hm hfields hu
          | value => exact .value hmap hm hfields hu
      cases halves with
      | nil =>
        refine iff_of_false (by simp [TypeDoc.refAt]) ?_
        rintro ⟨target, hu, -⟩
        cases hu with
        | enum hno | message hno => exact absurd hmap (by simp [hno])
      | cons half halves =>
        simp only [hmapped]
        cases half with
        | key => rw [TypeDoc.refAt, ih depth' (Nat.lt_succ_self _) hk]
        | value => rw [TypeDoc.refAt, ih depth' (Nat.lt_succ_self _) hv]

private theorem forall₂_bound {s : Schema.Service} {d : Doc.Service} (h : service ix s = .ok d) :
    List.Forall₂ (fun m e => ∀ side, e.typeOf side = messageUse ix (m.targetOf side)) s.bound
      d.endpoints := by
  obtain ⟨endpoints, hendpoints, rfl⟩ := service_eq_ok_iff.mp h
  clear h
  rw [mapM_eq_ok_iff] at hendpoints
  rw [Schema.Service.bound]
  generalize s.methods = methods at hendpoints ⊢
  induction hendpoints with
  | nil => exact .nil
  | @cons m o methods endpoints hm _ ih =>
    rcases endpoint?_eq_ok hm with ⟨hno, rfl⟩ | ⟨hhttp, e, rfl, hrequest, hresponse⟩
    · rw [List.filter_cons_of_neg (by simp [hno])]
      exact ih
    · rw [List.filter_cons_of_pos (by simp [hhttp])]
      refine .cons (fun side => ?_) ih
      cases side with
      | request => exact hrequest
      | response => exact hresponse

private theorem endpointAt?_package {f : File} {p : Package} (h : package ix f = .ok p) {i k : Nat}
    {side : Side} {type : TypeDoc} :
    (∃ e, p.endpointAt? i k = some e ∧ e.typeOf side = type) ↔
      ∃ s m, f.services[i]? = some s ∧ s.bound[k]? = some m ∧
        messageUse ix (m.targetOf side) = type := by
  obtain ⟨-, -, -, hservices, -⟩ := package_eq_ok_iff.mp h
  constructor
  · intro he
    obtain ⟨e, he, rfl⟩ := he
    obtain ⟨d, hd, he⟩ := Option.bind_eq_some_iff.mp he
    obtain ⟨s, hs, hsd⟩ := getElem?_mapM hservices hd
    obtain ⟨m, hm, hsides⟩ := getElem?_of_forall₂ (forall₂_bound hsd).flip he
    exact ⟨s, m, hs, hm, (hsides side).symm⟩
  · intro hm
    obtain ⟨s, m, hs, hm, rfl⟩ := hm
    obtain ⟨d, hd, hsd⟩ := getElem?_of_mapM hservices hs
    obtain ⟨e, he, hsides⟩ := getElem?_of_forall₂ (forall₂_bound hsd) hm
    exact ⟨e, Option.bind_eq_some_iff.mpr ⟨d, hd, he⟩, hsides side⟩

private theorem fieldRefAt_declaration {d : Schema.Declaration} {type : TypeDoc} {position : Nat}
    (h : declaration ix d = .ok type) :
    type.fieldRefAt position halves = some n ↔ ∃ m fd target, d = .message m ∧
      m.fields[position]? = some fd ∧ fd.UsesAt ix halves target ∧ n = ix.flatName target := by
  cases d with
  | enum e =>
    cases h
    simp [enum, TypeDoc.fieldRefAt]
  | message m =>
    obtain ⟨fields, hfields, rfl⟩ := declaration_message_eq_ok_iff.mp h
    rw [TypeDoc.fieldRefAt, Option.bind_eq_some_iff]
    constructor
    · intro hn
      obtain ⟨d, hd, hn⟩ := hn
      obtain ⟨fd, hfd, hfield⟩ := getElem?_mapM hfields hd
      obtain ⟨-, -, htype⟩ := field_eq_ok_iff.mp hfield
      obtain ⟨target, hu, hn⟩ := (refAt_typeWithin htype).mp hn
      exact ⟨m, fd, target, rfl, hfd, hu, hn⟩
    · intro hn
      obtain ⟨m', fd, target, hm, hfd, hu, hn⟩ := hn
      cases hm
      obtain ⟨d, hd, hfield⟩ := getElem?_of_mapM hfields hfd
      obtain ⟨-, -, htype⟩ := field_eq_ok_iff.mp hfield
      exact ⟨d, hd, (refAt_typeWithin htype).mpr ⟨target, hu, hn⟩⟩

/-- A package refers at a place to what its file names there, by the documented name. -/
theorem refAt_package_iff {f : File} {p : Package} (h : package ix f = .ok p) {place : Mention} :
    p.refAt place = some n ↔ ∃ target, f.UsesAt ix place target ∧ n = ix.flatName target := by
  obtain ⟨-, -, -, -, htypes⟩ := package_eq_ok_iff.mp h
  cases place with
  | field message position halves =>
    rw [Package.refAt, Option.bind_eq_some_iff]
    constructor
    · intro hn
      obtain ⟨type, hget, hn⟩ := hn
      obtain ⟨d, hd, rfl, htype⟩ := (get?_typesOf htypes).mp hget
      obtain ⟨m, fd, target, rfl, hfd, hu, hn⟩ := (fieldRefAt_declaration htype).mp hn
      exact ⟨target, .field hd hfd hu, hn⟩
    · intro hn
      obtain ⟨target, hu, hn⟩ := hn
      cases hu with
      | field hm hfd hu =>
        obtain ⟨type, htype⟩ := exists_declaration_of_typesOf htypes hm
        exact ⟨type, (get?_typesOf htypes).mpr ⟨_, hm, rfl, htype⟩,
          (fieldRefAt_declaration htype).mpr ⟨_, _, target, rfl, hfd, hu, hn⟩⟩
  | method i k side =>
    rw [Package.refAt, Option.bind_eq_some_iff]
    constructor
    · intro hn
      obtain ⟨e, he, hn⟩ := hn
      obtain ⟨s, m, hs, hm, htype⟩ := (endpointAt?_package h).mp ⟨e, he, rfl⟩
      rw [← htype, refAt_messageUse] at hn
      exact ⟨m.targetOf side, .method hs hm hn.2.1, hn.2.2⟩
    · intro hn
      obtain ⟨target, hu, hn⟩ := hn
      cases hu with
      | method hs hm hbasic =>
        obtain ⟨e, he, htype⟩ := (endpointAt?_package h).mpr ⟨_, _, hs, hm, rfl⟩
        exact ⟨e, he, htype ▸ refAt_messageUse.mpr ⟨rfl, hbasic, hn⟩⟩

/-- Every reference of a package stands at a place. -/
theorem mem_refs_iff_refAt {f : File} {p : Package} (h : package ix f = .ok p) :
    n ∈ p.refs ↔ ∃ place, p.refAt place = some n := by
  simp only [mem_refs_package h, refAt_package_iff h, Schema.File.uses_iff_usesAt]
  constructor
  · intro hn
    obtain ⟨target, ⟨place, hu⟩, hn⟩ := hn
    exact ⟨place, target, hu, hn⟩
  · intro hn
    obtain ⟨place, target, hu, hn⟩ := hn
    exact ⟨target, ⟨place, hu⟩, hn⟩

end Conversion
end SchemaDocs
