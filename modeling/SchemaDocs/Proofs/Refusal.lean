import Mathlib.Data.List.Perm.Subperm
import Mathlib.Logic.Relation
import SchemaDocs.Proofs.Conversion
import SchemaDocs.Proofs.Fault
import SchemaDocs.Proofs.Index

/-!
# What conversion refuses

A field without documentation has a kind that is not shown, or is a map field whose chain of entry
messages ends at such a field or at what is no entry; a method, a binding without a route or with a
body that its request does not have. Chains that never come back to a field are no longer than the
index, so there the bound on their length plays no part. Main statements: `typeOf_eq_error_iff`,
`service_eq_error_iff`.
-/

namespace SchemaDocs

open Doc (TypeDoc)
open Schema (Index)

namespace Schema

/-- Key and value of the entry message with a full name: the first two of its fields. -/
def Index.entry? (ix : Index) (fullName : String) : Option (Field × Field) :=
  match (ix.message? fullName).map (·.fields) with
  | some (key :: value :: _) => some (key, value)
  | _ => none

theorem Index.entry?_eq_some_iff {ix : Index} {fullName : String} {key value : Field} :
    ix.entry? fullName = some (key, value) ↔
      ∃ m rest, ix.message? fullName = some m ∧ m.fields = key :: value :: rest := by
  unfold Index.entry?
  cases hm : ix.message? fullName with
  | none => simp
  | some m =>
    rw [Option.map_some]
    rcases hfields : m.fields with _ | ⟨k, _ | ⟨v, rest⟩⟩ <;> simp [hfields]

private theorem Index.mem_of_entry? {ix : Index} {fullName : String} {entry : Field × Field}
    (h : ix.entry? fullName = some entry) :
    fullName ∈ ix.declared.map (·.declaration.fullName) := by
  obtain ⟨m, rest, hm, -⟩ := Index.entry?_eq_some_iff.mp h
  obtain ⟨package, hmem, hname⟩ := Index.mem_of_message? hm
  exact List.mem_map.mpr ⟨_, hmem, hname⟩

namespace Field

/-- A field has documentation: its kind is shown, or it is a map field and so have the key and the
value of its entry. -/
inductive Classifiable (ix : Index) : Field → Prop
  | plain {f : Field} :
    f.isMap = false → f.kind ≠ .group → f.kind ≠ .unknown → Classifiable ix f
  | map {f key value : Field} : f.isMap = true → ix.entry? f.target = some (key, value) →
    Classifiable ix key → Classifiable ix value → Classifiable ix f

/-- The first reason why a field has no documentation; a map field is looked at before the key of
its entry, and the key before the value. -/
inductive Fault (ix : Index) : Field → ConversionError → Prop
  | kind {f : Field} : f.isMap = false → f.kind = .group ∨ f.kind = .unknown →
    Fault ix f (.unsupportedKind f.name f.kind)
  | entry {f : Field} : f.isMap = true → ix.entry? f.target = none →
    Fault ix f (.malformedMapEntry f.name f.target)
  | key {f key value : Field} {e : ConversionError} : f.isMap = true →
    ix.entry? f.target = some (key, value) → Fault ix key e → Fault ix f e
  | value {f key value : Field} {e : ConversionError} : f.isMap = true →
    ix.entry? f.target = some (key, value) → Classifiable ix key → Fault ix value e → Fault ix f e

/-- A map field leads to the key and to the value of its entry. -/
def Enters (ix : Index) (f g : Field) : Prop :=
  f.isMap = true ∧ ∃ key value, ix.entry? f.target = some (key, value) ∧ (g = key ∨ g = value)

/-- No chain of entries that starts at a field is longer than the given bound. -/
def ChainsWithin (ix : Index) : Nat → Field → Prop
  | 0, f => ∀ g, ¬ f.Enters ix g
  | n + 1, f => ∀ g, f.Enters ix g → g.ChainsWithin ix n

variable {ix : Index} {f g key value : Field} {e : ConversionError}

private theorem ChainsWithin.entry?_eq_none (h : f.ChainsWithin ix 0) (hmap : f.isMap = true) :
    ix.entry? f.target = none := by
  cases hentry : ix.entry? f.target with
  | none => rfl
  | some entry => exact absurd ⟨hmap, _, _, hentry, .inl rfl⟩ (h entry.1)

private theorem classifiable_iff_of_not_map (hmap : f.isMap = false) :
    f.Classifiable ix ↔ ¬ (f.kind = .group ∨ f.kind = .unknown) := by
  rw [not_or]
  constructor
  · intro h
    cases h with
    | plain _ hgroup hunknown => exact ⟨hgroup, hunknown⟩
    | map hm => exact absurd hmap (by simp [hm])
  · intro h
    exact .plain hmap h.1 h.2

private theorem classifiable_iff_of_map (hmap : f.isMap = true) :
    f.Classifiable ix ↔ ∃ key value, ix.entry? f.target = some (key, value) ∧
      key.Classifiable ix ∧ value.Classifiable ix := by
  constructor
  · intro h
    cases h with
    | plain hno => exact absurd hmap (by simp [hno])
    | map _ hentry hkey hvalue => exact ⟨_, _, hentry, hkey, hvalue⟩
  · intro h
    obtain ⟨key, value, hentry, hkey, hvalue⟩ := h
    exact .map hmap hentry hkey hvalue

private theorem fault_iff_of_not_map (hmap : f.isMap = false) :
    f.Fault ix e ↔ (f.kind = .group ∨ f.kind = .unknown) ∧ e = .unsupportedKind f.name f.kind := by
  constructor
  · intro h
    cases h with
    | kind _ hkind => exact ⟨hkind, rfl⟩
    | entry hm | key hm | value hm => exact absurd hmap (by simp [hm])
  · intro h
    obtain ⟨hkind, rfl⟩ := h
    exact .kind hmap hkind

private theorem fault_iff_of_no_entry (hmap : f.isMap = true) (hentry : ix.entry? f.target = none) :
    f.Fault ix e ↔ e = .malformedMapEntry f.name f.target := by
  constructor
  · intro h
    cases h with
    | kind hno => exact absurd hmap (by simp [hno])
    | entry => rfl
    | key _ hsome | value _ hsome => exact absurd hentry (by simp [hsome])
  · intro h
    rw [h]
    exact .entry hmap hentry

private theorem fault_iff_of_entry (hmap : f.isMap = true)
    (hentry : ix.entry? f.target = some (key, value)) :
    f.Fault ix e ↔ key.Fault ix e ∨ key.Classifiable ix ∧ value.Fault ix e := by
  constructor
  · intro h
    cases h with
    | kind hno => exact absurd hmap (by simp [hno])
    | entry _ hnone => exact absurd hentry (by simp [hnone])
    | key _ hsome hfault =>
      rw [hentry] at hsome
      cases hsome
      exact .inl hfault
    | value _ hsome hkey hfault =>
      rw [hentry] at hsome
      cases hsome
      exact .inr ⟨hkey, hfault⟩
  · intro h
    rcases h with h | ⟨hkey, h⟩
    · exact .key hmap hentry h
    · exact .value hmap hentry hkey h

private theorem enters_key (hmap : f.isMap = true) (hentry : ix.entry? f.target = some (key, value))
    :
    f.Enters ix key :=
  ⟨hmap, key, value, hentry, .inl rfl⟩

private theorem enters_value (hmap : f.isMap = true)
    (hentry : ix.entry? f.target = some (key, value)) :
    f.Enters ix value :=
  ⟨hmap, key, value, hentry, .inr rfl⟩

theorem classifiable_iff_forall_not_fault {n : Nat} (h : f.ChainsWithin ix n) :
    f.Classifiable ix ↔ ∀ e, ¬ f.Fault ix e := by
  induction n generalizing f with
  | zero =>
    cases hmap : f.isMap with
    | false => simp [classifiable_iff_of_not_map hmap, fault_iff_of_not_map hmap]
    | true =>
      have hentry : ix.entry? f.target = none := h.entry?_eq_none hmap
      simp [classifiable_iff_of_map hmap, fault_iff_of_no_entry hmap hentry, hentry]
  | succ n ih =>
    cases hmap : f.isMap with
    | false => simp [classifiable_iff_of_not_map hmap, fault_iff_of_not_map hmap]
    | true =>
      rcases hentry : ix.entry? f.target with _ | ⟨key, value⟩
      · simp [classifiable_iff_of_map hmap, fault_iff_of_no_entry hmap hentry, hentry]
      · have hkey := ih (h key (enters_key hmap hentry))
        have hvalue := ih (h value (enters_value hmap hentry))
        have hsplit : f.Classifiable ix ↔ key.Classifiable ix ∧ value.Classifiable ix := by
          simp [classifiable_iff_of_map hmap, hentry]
        simp only [hsplit, fault_iff_of_entry hmap hentry, not_or, not_and, forall_and]
        constructor
        · intro hboth
          exact ⟨hkey.mp hboth.1, fun e _ => hvalue.mp hboth.2 e⟩
        · intro hnone
          have hk := hkey.mpr hnone.1
          exact ⟨hk, hvalue.mpr fun e => hnone.2 e hk⟩

end Field

/-- No chain of map fields comes back to a field. -/
def Index.Acyclic (ix : Index) : Prop := ∀ f, ¬ Relation.TransGen (Field.Enters ix) f f

section
open Relation (TransGen)
variable {ix : Index} {f g : Field}

private theorem Index.Acyclic.target_ne (h : ix.Acyclic) (hf : f.isMap = true)
    (hgf : TransGen (Field.Enters ix) g f) : g.target ≠ f.target := by
  intro hsame
  obtain ⟨x, hgx, hxf⟩ := TransGen.head'_iff.mp hgf
  have hfx : f.Enters ix x := ⟨hf, hsame ▸ hgx.2⟩
  exact h f (TransGen.head' hfx hxf)

/-- The full names of the entries that a chain has come through on its way to a field. -/
structure Index.Passed (ix : Index) (names : List String) (f : Field) : Prop where
  nodup : names.Nodup
  declared : names ⊆ ix.declared.map (·.declaration.fullName)
  behind : ∀ name ∈ names, ∃ g, g.target = name ∧ TransGen (Field.Enters ix) g f

private theorem Index.Passed.length_le {names : List String} (h : ix.Passed names f) :
    names.length ≤ ix.declared.length := by
  simpa using (List.subperm_of_subset h.nodup h.declared).length_le

private theorem Index.Passed.enter {names : List String} (h : ix.Passed names f)
    (hacyclic : ix.Acyclic)
    (hfg : f.Enters ix g) : ix.Passed (f.target :: names) g := by
  constructor
  case nodup =>
    refine List.nodup_cons.mpr ⟨fun hmem => ?_, h.nodup⟩
    obtain ⟨x, hsame, hxf⟩ := h.behind _ hmem
    exact hacyclic.target_ne hfg.1 hxf hsame
  case declared =>
    obtain ⟨-, key, value, hentry, -⟩ := hfg
    exact List.cons_subset.mpr ⟨Index.mem_of_entry? hentry, h.declared⟩
  case behind =>
    refine List.forall_mem_cons.mpr ⟨⟨f, rfl, .single hfg⟩, fun name hname => ?_⟩
    obtain ⟨x, hx, hxf⟩ := h.behind name hname
    exact ⟨x, hx, hxf.tail hfg⟩

/-- A step takes one from the bound and adds one name, and names are no more than declarations. -/
theorem Index.Passed.chainsWithin {n : Nat} {names : List String} (h : ix.Passed names f)
    (hacyclic : ix.Acyclic) (hn : ix.declared.length ≤ n + names.length) :
    f.ChainsWithin ix n := by
  induction n generalizing f names with
  | zero =>
    intro g hfg
    have hlength := (h.enter hacyclic hfg).length_le
    simp only [List.length_cons] at hlength
    omega
  | succ n ih =>
    intro g hfg
    refine ih (h.enter hacyclic hfg) ?_
    simp only [List.length_cons]
    omega

theorem Index.Acyclic.chainsWithin (h : ix.Acyclic) (f : Field) :
    f.ChainsWithin ix ix.declared.length := by
  have hstart : ix.Passed [] f := ⟨List.nodup_nil, List.nil_subset _, by simp⟩
  exact hstart.chainsWithin h (Nat.le_refl _)

/-- Chains end where entries can be given heights that fall along them. -/
theorem Index.acyclic_of_height (height : Field → Nat)
    (h : ∀ f g, f.Enters ix g → height g < height f) : ix.Acyclic := by
  have hfall {f g : Field} (hfg : TransGen (Field.Enters ix) f g) : height g < height f := by
    induction hfg with
    | single hfg => exact h _ _ hfg
    | tail _ hgk ih => exact Nat.lt_trans (h _ _ hgk) ih
  exact fun f hf => Nat.lt_irrefl _ (hfall hf)

end

def Declaration.fields : Declaration → List Field
  | .message m => m.fields
  | .enum _ => []

/-- A method has documentation, if it needs one: a binding has a route, and a body that is named is
a field of the declared request. -/
def Method.Bindable (ix : Index) (m : Method) : Prop :=
  ∀ binding, m.http = some binding → (∃ route, binding.route = some route) ∧
    ∀ body, binding.body = some body → body ≠ "" → body ≠ "*" →
      ∃ request, ix.message? m.input = some request ∧ ∃ f ∈ request.fields, f.name = body

/-- The first reason why a method of a service has no documentation. -/
inductive Method.Fault (ix : Index) (service : String) (m : Method) : ConversionError → Prop
  | route {binding : Binding} : m.http = some binding → binding.route = none →
    Fault ix service m (.missingRoute (service ++ "." ++ m.name))
  | request {binding : Binding} {route : Route} {body : String} : m.http = some binding →
    binding.route = some route → binding.body = some body → body ≠ "" → body ≠ "*" →
    ix.message? m.input = none → Fault ix service m (.unknownMessage m.input)
  | body {binding : Binding} {route : Route} {body : String} {request : Message} :
    m.http = some binding → binding.route = some route → binding.body = some body → body ≠ "" →
    body ≠ "*" → ix.message? m.input = some request → (∀ f ∈ request.fields, f.name ≠ body) →
    Fault ix service m (.missingBodyField body (service ++ "." ++ m.name))

theorem Method.bindable_iff_forall_not_fault {ix : Index} {service : String} {m : Method} :
    m.Bindable ix ↔ ∀ e, ¬ m.Fault ix service e := by
  constructor
  · intro h e hfault
    cases hfault with
    | route hhttp hroute =>
      obtain ⟨⟨route, hsome⟩, -⟩ := h _ hhttp
      simp [hroute] at hsome
    | request hhttp _ hbody hempty hwhole hnone =>
      obtain ⟨request, hrequest, -⟩ := (h _ hhttp).2 _ hbody hempty hwhole
      simp [hnone] at hrequest
    | body hhttp _ hbody hempty hwhole hsome hall =>
      obtain ⟨request, hrequest, f, hf, hname⟩ := (h _ hhttp).2 _ hbody hempty hwhole
      rw [hsome] at hrequest
      cases hrequest
      exact hall f hf hname
  · intro h binding hhttp
    cases hroute : binding.route with
    | none => exact absurd (.route hhttp hroute) (h _)
    | some route =>
      refine ⟨⟨route, rfl⟩, fun body hbody hempty hwhole => ?_⟩
      cases hrequest : ix.message? m.input with
      | none => exact absurd (.request hhttp hroute hbody hempty hwhole hrequest) (h _)
      | some request =>
        refine ⟨request, rfl, ?_⟩
        by_contra hno
        have hall : ∀ f ∈ request.fields, f.name ≠ body := by simpa using hno
        exact h _ (.body hhttp hroute hbody hempty hwhole hrequest hall)

end Schema

namespace Conversion

variable {ix : Index} {e : ConversionError}

/-! ## Fields -/

private theorem elementType_eq_error_iff {f : Schema.Field} :
    elementType ix f = .error e ↔
      (f.kind = .group ∨ f.kind = .unknown) ∧ e = .unsupportedKind f.name f.kind := by
  unfold elementType
  cases f.kind <;> simp [scalarTitle?, eq_comm]

variable {depth : Nat} {f : Schema.Field}

theorem typeWithin_eq_error_iff_of_not_map (hmap : f.isMap = false) :
    typeWithin ix depth f = .error e ↔ f.Fault ix e := by
  unfold typeWithin
  rw [if_neg (by simp [hmap]), bind_pure_eq_error_iff, elementType_eq_error_iff,
    Schema.Field.fault_iff_of_not_map hmap]

theorem typeWithin_zero (hmap : f.isMap = true) :
    typeWithin ix 0 f = .error (.malformedMapEntry f.name f.target) := by
  unfold typeWithin
  rw [if_pos hmap]

theorem typeWithin_succ (hmap : f.isMap = true) :
    typeWithin ix (depth + 1) f =
      match ix.entry? f.target with
      | none => .error (.malformedMapEntry f.name f.target)
      | some (key, value) => do
        let key ← typeWithin ix depth key
        let value ← typeWithin ix depth value
        return .map key value := by
  conv_lhs => unfold typeWithin
  rw [if_pos hmap]
  unfold Index.entry?
  cases ix.message? f.target with
  | none => rfl
  | some m =>
    obtain ⟨name, fullName, description, fields, messages, enums, isMapEntry⟩ := m
    rcases fields with _ | ⟨key, _ | ⟨value, rest⟩⟩ <;> rfl

/-- Where the bound on chains is never reached, a field without a type has the first reason why. -/
theorem typeWithin_eq_error_iff (h : f.ChainsWithin ix depth) :
    typeWithin ix depth f = .error e ↔ f.Fault ix e := by
  induction depth generalizing f e with
  | zero =>
    cases hmap : f.isMap with
    | false => exact typeWithin_eq_error_iff_of_not_map hmap
    | true =>
      rw [typeWithin_zero hmap, Schema.Field.fault_iff_of_no_entry hmap (h.entry?_eq_none hmap)]
      simp [eq_comm]
  | succ depth ih =>
    cases hmap : f.isMap with
    | false => exact typeWithin_eq_error_iff_of_not_map hmap
    | true =>
      rw [typeWithin_succ hmap]
      rcases hentry : ix.entry? f.target with _ | ⟨key, value⟩
      · simp [Schema.Field.fault_iff_of_no_entry hmap hentry, eq_comm]
      · have hkey := h key (Schema.Field.enters_key hmap hentry)
        have hvalue := h value (Schema.Field.enters_value hmap hentry)
        have hpasses : (∃ type, typeWithin ix depth key = .ok type) ↔ key.Classifiable ix := by
          rw [exists_ok_iff, Schema.Field.classifiable_iff_forall_not_fault hkey]
          simp only [ne_eq, ih hkey]
        rw [Schema.Field.fault_iff_of_entry hmap hentry, bind_eq_error_iff]
        simp only [bind_pure_eq_error_iff, ih hkey, ih hvalue, exists_and_right, hpasses]

theorem typeOf_eq_error_iff (h : ix.Acyclic) : typeOf ix f = .error e ↔ f.Fault ix e :=
  typeWithin_eq_error_iff (h.chainsWithin f)

private theorem field_eq_error_iff : field ix f = .error e ↔ typeOf ix f = .error e := by
  rw [field, bind_pure_eq_error_iff]

theorem declaration_eq_error_iff {d : Schema.Declaration} :
    declaration ix d = .error e ↔ FirstFault (fun f e => typeOf ix f = .error e) d.fields e := by
  cases d with
  | enum _ => simp [declaration, Schema.Declaration.fields]
  | message m =>
    rw [declaration, bind_pure_eq_error_iff, mapM_eq_error_iff]
    simp only [field_eq_error_iff, Schema.Declaration.fields]

/-! ## Methods -/

private theorem bodyName_eq_error_iff {input body method : String} :
    bodyName ix input body method = .error e ↔
      ix.message? input = none ∧ e = .unknownMessage input ∨
      ∃ m, ix.message? input = some m ∧ (∀ f ∈ m.fields, f.name ≠ body) ∧
        e = .missingBodyField body method := by
  unfold bodyName
  cases ix.message? input with
  | none => simp [eq_comm]
  | some m =>
    have hfind : m.fields.find? (·.name = body) = none ↔ ∀ f ∈ m.fields, f.name ≠ body := by simp
    simp only [reduceCtorEq, false_and, false_or, Option.some.injEq, exists_eq_left', ← hfind]
    cases m.fields.find? (·.name = body) with
    | none => simp [eq_comm]
    | some f => simp

private theorem fault_method_iff {service : String} {m : Schema.Method}
    {route : Option Schema.Route}
    {body : Option String} (hhttp : m.http = some ⟨route, body⟩) :
    m.Fault ix service e ↔
      route = none ∧ e = .missingRoute (service ++ "." ++ m.name) ∨
      route ≠ none ∧ ∃ name, body = some name ∧ name ≠ "" ∧ name ≠ "*" ∧
        bodyName ix m.input name (service ++ "." ++ m.name) = .error e := by
  simp only [bodyName_eq_error_iff]
  constructor
  · intro h
    cases h with
    | route hb hroute =>
      rw [hhttp] at hb
      cases hb
      exact .inl ⟨hroute, rfl⟩
    | request hb hroute hbody hempty hwhole hrequest =>
      rw [hhttp] at hb
      cases hb
      exact .inr ⟨by simp_all, _, hbody, hempty, hwhole, .inl ⟨hrequest, rfl⟩⟩
    | body hb hroute hbody hempty hwhole hrequest hnone =>
      rw [hhttp] at hb
      cases hb
      exact .inr ⟨by simp_all, _, hbody, hempty, hwhole, .inr ⟨_, hrequest, hnone, rfl⟩⟩
  · intro h
    rcases h with ⟨rfl, rfl⟩ | ⟨hroute, name, rfl, hempty, hwhole, h⟩
    · exact .route hhttp rfl
    · obtain ⟨r, rfl⟩ := Option.ne_none_iff_exists'.mp hroute
      rcases h with ⟨hrequest, rfl⟩ | ⟨request, hrequest, hnone, rfl⟩
      · exact .request hhttp rfl rfl hempty hwhole hrequest
      · exact .body hhttp rfl rfl hempty hwhole hrequest hnone

private theorem endpoint?_eq_error_iff {service : String} {m : Schema.Method} :
    endpoint? ix service m = .error e ↔ m.Fault ix service e := by
  unfold endpoint?
  cases hhttp : m.http with
  | none =>
    refine iff_of_false (by simp) fun h => ?_
    cases h with
    | route hb | request hb | body hb => simp [hhttp] at hb
  | some binding =>
    obtain ⟨route, body⟩ := binding
    rw [fault_method_iff hhttp]
    cases route with
    | none => simp [throw, throwThe, MonadExceptOf.throw, eq_comm]
    | some route =>
      dsimp only
      split
      · simp [pure_ne_error]
      · simp [pure_ne_error]
      · simp [pure_ne_error]
      · rename_i name hempty hwhole
        have hnamed : ¬ name = "" ∧ ¬ name = "*" := ⟨hempty, hwhole⟩
        rw [bind_pure_eq_error_iff, ← bind_pure_comp, bind_pure_eq_error_iff]
        simp [hnamed]

theorem service_eq_error_iff {s : Schema.Service} :
    service ix s = .error e ↔ FirstFault (Schema.Method.Fault ix s.name) s.methods e := by
  rw [service, bind_pure_eq_error_iff, mapM_eq_error_iff]
  simp only [endpoint?_eq_error_iff]

end Conversion
end SchemaDocs
