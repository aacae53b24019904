import SchemaDocs.Proofs.Section.Acceptance

/-!
# What entries give a section

An entry that is taken in sets one part of the section and keeps the others. So where all entries
are taken in, a part that is stated is as its entry states it, and any other is as it was at the
start. Main statements: `addEntry_eq_ok_iff` and `part_of_ofValue`.
-/

namespace SchemaDocs.Section

variable {texts : String → Except FileError String} {dir key entry : String} {v : Toml.Value}
  {s s' : Section}

/-- What an entry makes of a section. -/
inductive Adds (texts : String → Except FileError String) (dir key : String) (s : Section) :
    String → Toml.Value → Section → Prop
  | name (text : String) : Adds texts dir key s "name" (.string text) { s with name := text }
  | packages (text : String) : key ≠ defaultKey →
      Adds texts dir key s "packages" (.string text) { s with members := splitMembers text }
  | preamble {path text : String} : texts (Path.join dir path) = .ok text →
      Adds texts dir key s "preamble" (.string path) { s with preamble := text }
  | weight {v : Toml.Value} {w : Int64} : weightOf? v = some w →
      Adds texts dir key s "weight" v { s with weight := w }

private theorem preambleText_eq_ok_iff {path text : String} :
    preambleText texts path = .ok text ↔ texts path = .ok text := by
  unfold preambleText
  split
  · rename_i htext
    simp [htext]
  · rename_i htext
    simp [htext]

private theorem addEntry_eq_ok_iff :
    addEntry texts dir key s entry v = .ok s' ↔ Adds texts dir key s entry v s' := by
  constructor
  · intro h
    unfold addEntry at h
    split at h
    · simp only [bind_eq_ok_iff, pure_eq_ok_iff, textOf_eq_ok_iff] at h
      obtain ⟨text, rfl, rfl⟩ := h
      exact .name text
    · split at h
      · cases h
      · rename_i hkey
        simp only [bind_eq_ok_iff, pure_eq_ok_iff, textOf_eq_ok_iff] at h
        obtain ⟨text, rfl, rfl⟩ := h
        exact .packages text hkey
    · simp only [bind_eq_ok_iff, pure_eq_ok_iff, textOf_eq_ok_iff, preambleText_eq_ok_iff] at h
      obtain ⟨path, rfl, text, htext, rfl⟩ := h
      exact .preamble htext
    · split at h
      · rename_i hweight
        cases h
        exact .weight hweight
      · cases h
    · cases h
  · intro h
    cases h with
    | name text => rfl
    | packages text hkey => exact if_neg hkey
    | preamble htext =>
      refine bind_eq_ok_iff.mpr ⟨_, rfl, bind_eq_ok_iff.mpr ⟨_, ?_, rfl⟩⟩
      exact preambleText_eq_ok_iff.mpr htext
    | weight hweight => simp only [addEntry, hweight]

private theorem Adds.members_eq (h : Adds texts dir key s entry v s') (hentry : entry ≠ "packages")
    :
    s'.members = s.members := by
  cases h with
  | packages => exact absurd rfl hentry
  | _ => rfl

private theorem Adds.weight_eq (h : Adds texts dir key s entry v s') (hentry : entry ≠ "weight") :
    s'.weight = s.weight := by
  cases h with
  | weight => exact absurd rfl hentry
  | _ => rfl

private theorem Adds.exists_members (h : Adds texts dir key s entry v s')
    (hentry : entry = "packages") :
    key ≠ defaultKey ∧ ∃ text, v = .string text ∧ s'.members = splitMembers text := by
  cases h with
  | packages text hkey => exact ⟨hkey, text, rfl, rfl⟩
  | _ => exact absurd hentry (by decide)

private theorem Adds.weightOf?_eq (h : Adds texts dir key s entry v s') (hentry : entry = "weight")
    :
    weightOf? v = some s'.weight := by
  cases h with
  | weight hweight => exact hweight
  | _ => exact absurd hentry (by decide)

/-! ## All entries of a section -/

section

variable {α : Type} (part : Section → α) {name : String}

/-- Of entries under distinct keys the one that sets a part decides it, whatever goes before or
after. -/
theorem part_of_foldlM
    (hkeep : ∀ s s' entry v, entry ≠ name → Adds texts dir key s entry v s' → part s' = part s)
    {es : List (String × Toml.Value)} (hes : (es.map (·.1)).Nodup)
    (h : es.foldlM (fun s e => addEntry texts dir key s e.1 e.2) s = .ok s') :
    (∀ v, (name, v) ∈ es → ∃ t t', Adds texts dir key t name v t' ∧ part s' = part t') ∧
      (name ∉ es.map (·.1) → part s' = part s) := by
  induction es generalizing s with
  | nil =>
    rw [List.foldlM_nil, pure_eq_ok_iff] at h
    simp [h]
  | cons e es ih =>
    simp only [List.foldlM_cons, bind_eq_ok_iff, addEntry_eq_ok_iff] at h
    obtain ⟨next, hnext, hrest⟩ := h
    obtain ⟨hnot, hes⟩ := List.nodup_cons.mp hes
    obtain ⟨hset, hkept⟩ := ih hes hrest
    constructor
    · intro v hv
      rcases List.mem_cons.mp hv with rfl | hv
      · exact ⟨s, next, hnext, hkept hnot⟩
      · exact hset v hv
    · intro hnot
      rw [List.map_cons, List.mem_cons, not_or] at hnot
      rw [hkept hnot.2, hkeep s next e.1 e.2 (Ne.symm hnot.1) hnext]

private theorem part_of_ofValue
    (hkeep : ∀ s s' entry v, entry ≠ name → Adds texts dir key s entry v s' → part s' = part s)
    (h : ofValue texts dir key v = .ok s) :
    ∃ entries, v = .table entries ∧
      (∀ w, (KeyMap.ofList entries).get? name = some w →
        ∃ t t', Adds texts dir key t name w t' ∧ part s = part t') ∧
      ((KeyMap.ofList entries).get? name = none → part s = part (initial key)) := by
  unfold ofValue at h
  split at h
  · cases h
  · split at h
    · rename_i entries
      obtain ⟨hset, hkept⟩ := part_of_foldlM part hkeep (KeyMap.ofList entries).nodup_keys h
      refine ⟨entries, rfl, fun w hw => hset w (KeyMap.get?_eq_some_iff.mp hw), ?_⟩
      intro hnone
      refine hkept fun hmem => ?_
      obtain ⟨w, hw⟩ := KeyMap.mem_keys_iff.mp hmem
      cases hnone.symm.trans hw
    · cases h

end

theorem members_of_ofValue (h : ofValue texts dir key v = .ok s) :
    ∃ entries, v = .table entries ∧
      (∀ w, (KeyMap.ofList entries).get? "packages" = some w →
        key ≠ defaultKey ∧ ∃ text, w = .string text ∧ s.members = splitMembers text) ∧
      ((KeyMap.ofList entries).get? "packages" = none → s.members = []) := by
  obtain ⟨entries, hv, hset, hkept⟩ :=
    part_of_ofValue Section.members (fun _ _ _ _ hentry hadds => hadds.members_eq hentry) h
  refine ⟨entries, hv, fun w hw => ?_, hkept⟩
  obtain ⟨t, t', hadds, hpart⟩ := hset w hw
  rw [hpart]
  exact hadds.exists_members rfl

theorem weight_of_ofValue (h : ofValue texts dir key v = .ok s) :
    ∃ entries, v = .table entries ∧
      (∀ w, (KeyMap.ofList entries).get? "weight" = some w → weightOf? w = some s.weight) ∧
      ((KeyMap.ofList entries).get? "weight" = none → s.weight = 0) := by
  obtain ⟨entries, hv, hset, hkept⟩ :=
    part_of_ofValue Section.weight (fun _ _ _ _ hentry hadds => hadds.weight_eq hentry) h
  refine ⟨entries, hv, fun w hw => ?_, hkept⟩
  obtain ⟨t, t', hadds, hpart⟩ := hset w hw
  rw [hpart]
  exact hadds.weightOf?_eq rfl

end SchemaDocs.Section
