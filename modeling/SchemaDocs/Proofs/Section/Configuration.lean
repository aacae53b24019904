import SchemaDocs.Files.Memory
import SchemaDocs.Proofs.Except
import SchemaDocs.Proofs.KeyMap
import SchemaDocs.Section.Configuration

/-!
# Keys of a configuration

A section of a configuration that was read names a file of its own: its key is one plain name, and
so is the name of the file that it stands for.
-/

namespace SchemaDocs

namespace Configuration

variable {config : Configuration}

/-- A configuration that some text describes, with its preambles from some file system. -/
def Loaded (config : Configuration) : Prop :=
  ∃ (dir text : String) (m m' : Memory),
    (fromText dir text : StateM Memory _).run m = (.ok config, m')

theorem loaded_of_entries {dir text : String} {m : Memory}
    (h : ((fromText dir text : StateM Memory _).run m).1.toOption.map (·.sections.entries) =
      some config.sections.entries) : config.Loaded := by
  rcases hrun : (fromText dir text : StateM Memory _).run m with ⟨_ | found, m'⟩
  · simp [hrun, Except.toOption] at h
  · have hentries : found.sections.entries = config.sections.entries := by
      simpa [hrun, Except.toOption] using h
    have hsame : found = config := congrArg Configuration.mk (KeyMap.ext hentries)
    exact ⟨dir, text, m, m', hsame ▸ hrun⟩

private theorem Loaded.exists_table (h : config.Loaded) :
    ∃ texts dir table, ofTable texts dir table = .ok config := by
  obtain ⟨dir, text, m, m', hrun⟩ := h
  unfold fromText at hrun
  split at hrun
  · cases congrArg Prod.fst hrun
  · exact ⟨_, dir, _, congrArg Prod.fst hrun⟩

private theorem canNameFile_of_ofValue {texts : String → Except FileError String} {dir key : String}
    {v : Toml.Value} {s : Section} (h : Section.ofValue texts dir key v = .ok s) :
    Section.canNameFile key = true := by
  unfold Section.ofValue at h
  split at h
  · cases h
  · rename_i hkey
    simpa using hkey

/-- Values taken in one after the other under distinct keys: each is there at the end, and under no
other key has anything changed. -/
theorem foldlM_insert_eq_ok {es : List (String × Toml.Value)} (hes : (es.map (·.1)).Nodup)
    {f : String → Toml.Value → Except ConfigurationError Section} {start sections : KeyMap Section}
    (h : es.foldlM (fun m e => do return m.insert e.1 (← f e.1 e.2)) start = .ok sections) :
    (∀ e ∈ es, ∃ s, f e.1 e.2 = .ok s ∧ sections.get? e.1 = some s) ∧
      ∀ key ∉ es.map (·.1), sections.get? key = start.get? key := by
  induction es generalizing start with
  | nil =>
    rw [List.foldlM_nil, pure_eq_ok_iff] at h
    simp [h]
  | cons e es ih =>
    simp only [List.foldlM_cons, bind_eq_ok_iff, pure_eq_ok_iff] at h
    obtain ⟨next, ⟨s, hs, rfl⟩, hrest⟩ := h
    obtain ⟨hnot, hes⟩ := List.nodup_cons.mp hes
    obtain ⟨htaken, hkept⟩ := ih hes hrest
    refine ⟨List.forall_mem_cons.mpr ⟨⟨s, hs, ?_⟩, htaken⟩, fun key hkey => ?_⟩
    · rw [hkept e.1 hnot, KeyMap.get?_insert, if_pos rfl]
    · rw [List.map_cons, List.mem_cons, not_or] at hkey
      rw [hkept key hkey.2, KeyMap.get?_insert, if_neg hkey.1]

section

variable {texts : String → Except FileError String} {dir key : String} {table : KeyMap Toml.Value}

theorem exists_section_of_ofTable (h : ofTable texts dir table = .ok config) {v : Toml.Value}
    (hv : table.get? key = some v) :
    ∃ s, Section.ofValue texts dir key v = .ok s ∧ config.sections.get? key = some s := by
  simp only [ofTable, bind_eq_ok_iff, pure_eq_ok_iff] at h
  obtain ⟨sections, hfold, rfl⟩ := h
  exact (foldlM_insert_eq_ok table.nodup_keys hfold).1 (key, v) (KeyMap.get?_eq_some_iff.mp hv)

theorem exists_value_of_ofTable (h : ofTable texts dir table = .ok config) {s : Section}
    (hs : config.sections.get? key = some s) :
    ∃ v, table.get? key = some v ∧ Section.ofValue texts dir key v = .ok s := by
  have hkey : key ∈ table.keys := by
    by_contra hnot
    simp only [ofTable, bind_eq_ok_iff, pure_eq_ok_iff] at h
    obtain ⟨sections, hfold, rfl⟩ := h
    cases hs.symm.trans ((foldlM_insert_eq_ok table.nodup_keys hfold).2 key hnot)
  obtain ⟨v, hv⟩ := KeyMap.mem_keys_iff.mp hkey
  obtain ⟨s', hs', hget⟩ := exists_section_of_ofTable h hv
  cases hs.symm.trans hget
  exact ⟨v, hv, hs'⟩

private theorem canNameFile_of_ofTable (h : ofTable texts dir table = .ok config) :
    ∀ key ∈ config.sections.keys, Section.canNameFile key = true := by
  intro key hkey
  obtain ⟨s, hs⟩ := KeyMap.mem_keys_iff.mp hkey
  obtain ⟨v, -, hv⟩ := exists_value_of_ofTable h hs
  exact canNameFile_of_ofValue hv

end

theorem Loaded.canNameFile (h : config.Loaded) {key : String} (hkey : key ∈ config.sections.keys) :
    Section.canNameFile key = true := by
  obtain ⟨texts, dir, table, htable⟩ := h.exists_table
  exact canNameFile_of_ofTable htable key hkey

end Configuration

namespace Section

variable {key : String}

/-- The name of the file for the section with the given key. -/
def fileName (key : String) : String := key ++ ".json"

theorem fileName_injective {key key' : String} (h : fileName key = fileName key') : key = key' := by
  have hchars := congrArg String.toList h
  simpa [fileName, String.toList_inj] using hchars

theorem fileName_ne_empty (key : String) : fileName key ≠ "" := by
  intro h
  have hchars := congrArg String.toList h
  simp [fileName] at hchars

theorem slash_not_mem_fileName (h : canNameFile key = true) : '/' ∉ (fileName key).toList := by
  simp only [canNameFile, Bool.and_eq_true, List.all_eq_true] at h
  intro hslash
  simp only [fileName, String.toList_append, List.mem_append] at hslash
  rcases hslash with hslash | hslash
  · simpa using h.2 '/' hslash
  · simp at hslash

theorem canNameFile_default : canNameFile defaultKey = true := by decide

end Section

end SchemaDocs
