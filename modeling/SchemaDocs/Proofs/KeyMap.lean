import Mathlib.Data.List.Perm.Basic
import SchemaDocs.KeyMap

/-!
# Entries and look-ups

Because keys rise strictly, a map is known by its look-ups: an entry is found under its key, and
two maps with the same look-ups are equal. A list of entries in the order of its keys is a map as it
stands.
-/

namespace SchemaDocs.KeyMap
variable {α : Type}

theorem find?_of_mem {key : String} {value : α} {es : List (String × α)}
    (hs : es.Pairwise (·.1 < ·.1)) (h : (key, value) ∈ es) : find? key es = some value := by
  induction es with
  | nil => simp at h
  | cons e es ih =>
    have hlt := (List.pairwise_cons.mp hs).1
    simp only [find?]
    rcases List.mem_cons.mp h with rfl | h
    · simp
    · have hne : key ≠ e.1 := fun he => String.lt_irrefl key (he ▸ hlt (key, value) h)
      rw [if_neg hne]
      exact ih (List.pairwise_cons.mp hs).2 h

theorem get?_eq_some_iff {m : KeyMap α} {key : String} {value : α} :
    m.get? key = some value ↔ (key, value) ∈ m.entries :=
  ⟨mem_of_find?, find?_of_mem m.sorted⟩

theorem contains_iff {m : KeyMap α} {key : String} :
    m.contains key = true ↔ ∃ value, m.get? key = some value := by
  rw [contains, Option.isSome_iff_exists]

theorem get?_filter (m : KeyMap α) (p : String → α → Bool) (key : String) :
    (m.filter p).get? key = (m.get? key).filter (p key) := by
  ext value
  rw [get?_eq_some_iff, entries_filter, List.mem_filter, Option.filter_eq_some_iff,
    get?_eq_some_iff]

theorem get?_map {β : Type} (m : KeyMap α) (f : String → α → β) (key : String) :
    (m.map f).get? key = (m.get? key).map (f key) := by
  ext value
  simp [get?_eq_some_iff]

theorem mem_keys_iff {m : KeyMap α} {key : String} :
    key ∈ m.keys ↔ ∃ value, m.get? key = some value := by
  simp [keys, get?_eq_some_iff]

theorem mem_keys_insert {m : KeyMap α} {key name : String} {value : α} :
    key ∈ (m.insert name value).keys ↔ key = name ∨ key ∈ m.keys := by
  rw [mem_keys_iff, mem_keys_iff, get?_insert]
  by_cases hkey : key = name <;> simp [hkey]

theorem mem_values_iff {m : KeyMap α} {value : α} :
    value ∈ m.values ↔ ∃ key, m.get? key = some value := by
  simp [values, get?_eq_some_iff]

theorem nodup_keys (m : KeyMap α) : m.keys.Nodup := by
  refine List.pairwise_map.mpr (m.sorted.imp ?_)
  intro a b hlt heq
  exact String.lt_irrefl b.1 (heq ▸ hlt)

theorem nodup_entries (m : KeyMap α) : m.entries.Nodup :=
  List.Pairwise.of_map (·.1) (fun _ _ hne heq => hne (congrArg _ heq)) m.nodup_keys

theorem ext_get? {m n : KeyMap α} (h : ∀ key, m.get? key = n.get? key) : m = n := by
  have hmem : ∀ e, e ∈ m.entries ↔ e ∈ n.entries := by
    intro e
    obtain ⟨key, value⟩ := e
    rw [← get?_eq_some_iff, ← get?_eq_some_iff, h]
  have hperm := (List.perm_ext_iff_of_nodup m.nodup_entries n.nodup_entries).mpr hmem
  ext1
  refine hperm.eq_of_pairwise ?_ m.sorted n.sorted
  intro a b _ _ hab hba
  exact absurd (String.lt_trans hab hba) (String.lt_irrefl _)

theorem place_append {key : String} {value : α} {es : List (String × α)}
    (h : ∀ e ∈ es, e.1 < key) : place key value es = es ++ [(key, value)] := by
  induction es with
  | nil => rfl
  | cons e es ih =>
    obtain ⟨he, hes⟩ := List.forall_mem_cons.mp h
    have hlt : ¬ key < e.1 := fun hlt => String.lt_irrefl _ (String.lt_trans hlt he)
    have hne : key ≠ e.1 := fun heq => String.lt_irrefl _ (heq ▸ he)
    rw [place, if_neg hlt, if_neg hne, ih hes, List.cons_append]

theorem mem_of_mem_ofList {es : List (String × α)} {x : String × α} (h : x ∈ (ofList es).entries) :
    x ∈ es := by
  have hfold (es : List (String × α)) (start : KeyMap α)
      (hx : x ∈ (es.foldl (fun m e => m.insert e.1 e.2) start).entries) :
      x ∈ start.entries ∨ x ∈ es := by
    induction es generalizing start with
    | nil => exact .inl hx
    | cons e es ih =>
      rcases ih _ hx with hx | hx
      · rcases mem_place hx with rfl | hx
        · exact .inr List.mem_cons_self
        · exact .inl hx
      · exact .inr (List.mem_cons_of_mem _ hx)
  rcases hfold es empty h with hx | hx
  · cases hx
  · exact hx

theorem get?_ofList_singleton {key name : String} {value v : α} :
    (ofList [(name, value)]).get? key = some v ↔ key = name ∧ v = value := by
  rw [ofList, List.foldl_cons, List.foldl_nil, get?_insert, get?_empty]
  by_cases hkey : key = name <;> simp [hkey, eq_comm]

theorem ofList_entries (m : KeyMap α) : ofList m.entries = m := by
  have hfold (es : List (String × α)) (start : KeyMap α)
      (hs : (start.entries ++ es).Pairwise (·.1 < ·.1)) :
      (es.foldl (fun m e => m.insert e.1 e.2) start).entries = start.entries ++ es := by
    induction es generalizing start with
    | nil => simp
    | cons e es ih =>
      have hlt : ∀ x ∈ start.entries, x.1 < e.1 := fun x hx =>
        (List.pairwise_append.mp hs).2.2 x hx e List.mem_cons_self
      have hplace : (start.insert e.1 e.2).entries = start.entries ++ [e] := place_append hlt
      rw [List.foldl_cons, ih _ (by simpa [hplace] using hs), hplace, List.append_assoc,
        List.singleton_append]
  ext1
  exact hfold m.entries empty m.sorted

end SchemaDocs.KeyMap
