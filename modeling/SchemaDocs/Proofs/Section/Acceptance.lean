import SchemaDocs.Proofs.Files.Memory
import SchemaDocs.Proofs.Located
import SchemaDocs.Proofs.Section.Configuration
import SchemaDocs.Proofs.Section.Weight
import SchemaDocs.Proofs.Stream
import SchemaDocs.Proofs.Toml.Integer

/-!
# Configurations that are accepted

A configuration is accepted if all its sections are, and a section if its key is a plain file name,
its value is a table, and each entry of that is one of four, with a value fit for it. Otherwise the
least section that is not accepted decides the error, and in it the key first, then the value, then
the least entry. Main statement: `Configuration.fromText_acceptance`.
-/

namespace SchemaDocs

variable {m : Memory} {dir key entry path : String} {v : Toml.Value} {s : Section}

/-! ## Texts of files -/

namespace Memory

/-- A path leads to a file that holds a text. -/
def Holds (m : Memory) (path text : String) : Prop :=
  ∃ l, m.locate path = .ok l ∧ m.get? l = some (.file text.toUTF8)

/-- Why no text is read at a path. -/
inductive Unreadable (m : Memory) (path : String) : FileError → Prop
  | unlocated {e : FileError} : m.locate path = .error e → Unreadable m path e
  | missing {l : Location} : m.locate path = .ok l → m.get? l = none →
      Unreadable m path .notFound
  | directory {l : Location} : m.locate path = .ok l → m.get? l = some .directory →
      Unreadable m path .isADirectory
  | notText {l : Location} {bytes : ByteArray} : m.locate path = .ok l →
      m.get? l = some (.file bytes) → (∀ text : String, bytes ≠ text.toUTF8) →
      Unreadable m path .notText

private theorem readAt_eq_ok_iff {l : Location} {bytes : ByteArray} :
    m.readAt l = .ok bytes ↔ m.get? l = some (.file bytes) := by
  unfold readAt
  split
  · rename_i hnode
    simp [hnode]
  · rename_i hnode
    simp [hnode]
  · rename_i hnode
    simp [hnode]

private theorem textAt_eq_ok_iff {text : String} :
    m.textAt path = .ok text ↔ m.Holds path text := by
  simp only [textAt, bind_eq_ok_iff, readAt_eq_ok_iff, decodeText_eq_ok_iff]
  constructor
  · intro h
    obtain ⟨l, hl, bytes, hbytes, rfl⟩ := h
    exact ⟨l, hl, hbytes⟩
  · intro h
    obtain ⟨l, hl, hbytes⟩ := h
    exact ⟨l, hl, _, hbytes, rfl⟩

private theorem readAt_eq_error_iff {l : Location} {e : FileError} : m.readAt l = .error e ↔
    m.get? l = none ∧ e = .notFound ∨ m.get? l = some .directory ∧ e = .isADirectory := by
  unfold readAt
  split
  · rename_i hnode
    simp [hnode]
  · rename_i hnode
    simp [hnode, eq_comm]
  · rename_i hnode
    simp [hnode, eq_comm]

private theorem textAt_eq_error_iff {e : FileError} :
    m.textAt path = .error e ↔ m.Unreadable path e := by
  simp only [textAt, bind_eq_error_iff, readAt_eq_ok_iff, readAt_eq_error_iff,
    decodeText_eq_error_iff]
  constructor
  · intro h
    rcases h with hpath | ⟨l, hl, (⟨hnode, rfl⟩ | ⟨hnode, rfl⟩) | ⟨bytes, hnode, hbytes, rfl⟩⟩
    · exact .unlocated hpath
    · exact .missing hl hnode
    · exact .directory hl hnode
    · exact .notText hl hnode hbytes
  · intro h
    cases h with
    | unlocated hpath => exact .inl hpath
    | missing hl hnode => exact .inr ⟨_, hl, .inl (.inl ⟨hnode, rfl⟩)⟩
    | directory hl hnode => exact .inr ⟨_, hl, .inl (.inr ⟨hnode, rfl⟩)⟩
    | notText hl hnode hbytes => exact .inr ⟨_, hl, .inr ⟨_, hnode, hbytes, rfl⟩⟩

end Memory

/-! ## Entries -/

namespace Section

/-- A name of one part that is no step to another directory. -/
def PlainName (key : String) : Prop :=
  key ≠ "" ∧ key ≠ "." ∧ key ≠ ".." ∧ '/' ∉ key.toList ∧ '\\' ∉ key.toList ∧ '\x00' ∉ key.toList

theorem canNameFile_iff : canNameFile key = true ↔ PlainName key := by
  simp only [canNameFile, PlainName, Bool.and_eq_true, bne_iff_ne, List.all_eq_true, ne_eq,
    and_assoc]
  grind

/-- What an entry of a section may be. -/
inductive AllowedEntry (m : Memory) (dir key : String) : String → Toml.Value → Prop
  | name (text : String) : AllowedEntry m dir key "name" (.string text)
  | packages (text : String) : key ≠ defaultKey →
      AllowedEntry m dir key "packages" (.string text)
  | preamble {path text : String} : m.Holds (Path.join dir path) text →
      AllowedEntry m dir key "preamble" (.string path)
  | weight (n : Int) : AllowedEntry m dir key "weight" (.integer n)
  | weightText {text : String} {n : Int} : HoldsInteger text n → Decimal.fits 64 n = true →
      AllowedEntry m dir key "weight" (.string text)

/-- What is wrong with an entry of a section. -/
inductive EntryFault (m : Memory) (dir key : String) :
    String → Toml.Value → ConfigurationError → Prop
  | name {v : Toml.Value} : (∀ text, v ≠ .string text) →
      EntryFault m dir key "name" v (.notString "name" key)
  /-- Whatever the value is. -/
  | packagesOfDefault (v : Toml.Value) : key = defaultKey →
      EntryFault m dir key "packages" v .defaultHasMembers
  | packages {v : Toml.Value} : key ≠ defaultKey → (∀ text, v ≠ .string text) →
      EntryFault m dir key "packages" v (.notString "packages" key)
  | preamble {v : Toml.Value} : (∀ text, v ≠ .string text) →
      EntryFault m dir key "preamble" v (.notString "preamble" key)
  | unreadable {path : String} {cause : FileError} : m.Unreadable (Path.join dir path) cause →
      EntryFault m dir key "preamble" (.string path) (.preamble (Path.join dir path) cause)
  | weight {v : Toml.Value} : (∀ n, v ≠ .integer n) →
      (∀ text n, v = .string text → HoldsInteger text n → Decimal.fits 64 n = false) →
      EntryFault m dir key "weight" v (.invalidWeight key)
  | unknown {entry : String} (v : Toml.Value) :
      entry ∉ ["name", "packages", "preamble", "weight"] →
      EntryFault m dir key entry v (.unknownEntry entry key)

variable {e : ConfigurationError}

private theorem textOf_eq_error_iff : textOf entry key v = .error e ↔
    (∀ text, v ≠ .string text) ∧ e = .notString entry key := by
  unfold textOf
  split
  · simp
  · rename_i hv
    simp only [Except.error.injEq, eq_comm (a := e), iff_and_self]
    intro _
    exact hv

theorem textOf_eq_ok_iff {text : String} : textOf entry key v = .ok text ↔ v = .string text := by
  unfold textOf
  split
  · simp
  · rename_i hv
    simpa using hv text

private theorem preambleText_eq_error_iff : preambleText m.textAt path = .error e ↔
    ∃ cause, m.Unreadable path cause ∧ e = .preamble path cause := by
  simp only [← Memory.textAt_eq_error_iff]
  unfold preambleText
  split
  · rename_i htext
    simp [htext]
  · rename_i cause htext
    simp [htext, eq_comm (a := e)]

private theorem weightOf?_eq_none_iff (hv : v.Bounded) :
    weightOf? v = none ↔ (∀ n, v ≠ .integer n) ∧
    ∀ text n, v = .string text → HoldsInteger text n → Decimal.fits 64 n = false := by
  unfold weightOf?
  split
  · rename_i n
    rw [if_pos (Toml.Value.bounded_integer.mp hv)]
    simp
  · rename_i text
    rw [Option.eq_none_iff_forall_ne_some]
    constructor
    · intro h
      refine ⟨fun n => nofun, fun text' n htext hn => ?_⟩
      cases htext
      exact Bool.eq_false_iff.mpr fun hfits =>
        h _ (readWeight?_eq_some_iff.mpr ⟨n, hn, hfits, rfl⟩)
    · rintro ⟨-, hno⟩ w hw
      obtain ⟨n, hn, hfits, -⟩ := readWeight?_eq_some_iff.mp hw
      simpa [hfits] using hno text n rfl hn
  · rename_i hinteger hstring
    exact iff_of_true rfl ⟨hinteger, fun text _ htext => absurd htext (hstring text)⟩

private theorem addEntry_eq_error_iff (hv : v.Bounded) :
    addEntry m.textAt dir key s entry v = .error e ↔ EntryFault m dir key entry v e := by
  constructor
  · intro h
    unfold addEntry at h
    split at h
    · rw [bind_pure_eq_error_iff, textOf_eq_error_iff] at h
      obtain ⟨hv, rfl⟩ := h
      exact .name hv
    · split at h
      · rename_i hkey
        cases h
        exact .packagesOfDefault v hkey
      · rename_i hkey
        rw [bind_pure_eq_error_iff, textOf_eq_error_iff] at h
        obtain ⟨hv, rfl⟩ := h
        exact .packages hkey hv
    · simp only [bind_eq_error_iff, textOf_eq_error_iff, textOf_eq_ok_iff,
        preambleText_eq_error_iff, pure_ne_error, and_false, exists_false, or_false] at h
      rcases h with ⟨hv, rfl⟩ | ⟨path, rfl, cause, hcause, rfl⟩
      · exact .preamble hv
      · exact .unreadable hcause
    · split at h
      · cases h
      · rename_i hweight
        cases h
        obtain ⟨hinteger, htext⟩ := (weightOf?_eq_none_iff hv).mp hweight
        exact .weight hinteger htext
    · rename_i hname hpackages hpreamble hweight
      cases h
      exact .unknown v (by simpa using ⟨hname, hpackages, hpreamble, hweight⟩)
  · intro h
    cases h with
    | name hv => exact bind_pure_eq_error_iff.mpr (textOf_eq_error_iff.mpr ⟨hv, rfl⟩)
    | packagesOfDefault _ hkey => exact if_pos hkey
    | packages hkey hv =>
      refine (if_neg hkey).trans ?_
      exact bind_pure_eq_error_iff.mpr (textOf_eq_error_iff.mpr ⟨hv, rfl⟩)
    | preamble hv => exact bind_eq_error_iff.mpr (.inl (textOf_eq_error_iff.mpr ⟨hv, rfl⟩))
    | unreadable hcause =>
      refine bind_eq_error_iff.mpr (.inr ⟨_, rfl, ?_⟩)
      exact bind_pure_eq_error_iff.mpr (preambleText_eq_error_iff.mpr ⟨_, hcause, rfl⟩)
    | weight hinteger htext =>
      have hweight := (weightOf?_eq_none_iff hv).mpr ⟨hinteger, htext⟩
      simp only [addEntry, hweight]
    | unknown _ hentry =>
      simp only [List.mem_cons, List.not_mem_nil, or_false, not_or] at hentry
      obtain ⟨hname, hpackages, hpreamble, hweight⟩ := hentry
      unfold addEntry
      split <;> first | contradiction | rfl

private theorem AllowedEntry.exists_addEntry (hv : v.Bounded) (h : AllowedEntry m dir key entry v) :
    ∃ s', addEntry m.textAt dir key s entry v = .ok s' := by
  cases h with
  | name text => exact ⟨_, rfl⟩
  | packages text hkey => exact ⟨_, if_neg hkey⟩
  | preamble hholds =>
    rename_i path text
    have htext : preambleText m.textAt (Path.join dir path) = .ok text := by
      rw [preambleText, Memory.textAt_eq_ok_iff.mpr hholds]
    exact ⟨_, bind_eq_ok_iff.mpr ⟨path, rfl, bind_eq_ok_iff.mpr ⟨text, htext, rfl⟩⟩⟩
  | weight n =>
    have hweight : weightOf? (.integer n) = some (Int64.ofInt n) :=
      if_pos (Toml.Value.bounded_integer.mp hv)
    exact ⟨{ s with weight := Int64.ofInt n }, by simp only [addEntry, hweight]⟩
  | weightText hn hfits =>
    rename_i text n
    have hweight : weightOf? (.string text) = some (Int64.ofInt n) :=
      readWeight?_eq_some_iff.mpr ⟨n, hn, hfits, rfl⟩
    exact ⟨{ s with weight := Int64.ofInt n }, by simp only [addEntry, hweight]⟩

private theorem allowedEntry_of_forall_not_fault (h : ∀ e, ¬ EntryFault m dir key entry v e) :
    AllowedEntry m dir key entry v := by
  have hstring := exists_or_forall_not fun text => v = .string text
  by_cases hentry : entry ∈ ["name", "packages", "preamble", "weight"]
  · simp only [List.mem_cons, List.not_mem_nil, or_false] at hentry
    rcases hentry with rfl | rfl | rfl | rfl
    · rcases hstring with ⟨text, rfl⟩ | hv
      · exact .name text
      · exact absurd (.name hv) (h _)
    · by_cases hkey : key = defaultKey
      · exact absurd (.packagesOfDefault v hkey) (h _)
      · rcases hstring with ⟨text, rfl⟩ | hv
        · exact .packages text hkey
        · exact absurd (.packages hkey hv) (h _)
    · rcases hstring with ⟨path, rfl⟩ | hv
      · cases hread : m.textAt (Path.join dir path) with
        | ok text => exact .preamble (Memory.textAt_eq_ok_iff.mp hread)
        | error cause =>
          exact absurd (.unreadable (Memory.textAt_eq_error_iff.mp hread)) (h _)
      · exact absurd (.preamble hv) (h _)
    · rcases exists_or_forall_not fun n => v = .integer n with ⟨n, rfl⟩ | hinteger
      · exact .weight n
      · by_contra hnot
        refine h _ (.weight hinteger fun text n htext hn => ?_)
        subst htext
        exact Bool.eq_false_iff.mpr fun hfits => hnot (.weightText hn hfits)
  · exact absurd (.unknown v hentry) (h _)

private theorem forall_not_entryFault_iff (hv : v.Bounded) :
    (∀ e, ¬ EntryFault m dir key entry v e) ↔ AllowedEntry m dir key entry v := by
  refine ⟨allowedEntry_of_forall_not_fault, fun h e hfault => ?_⟩
  obtain ⟨s', hs'⟩ := h.exists_addEntry (s := initial key) hv
  rw [(addEntry_eq_error_iff hv).mpr hfault] at hs'
  cases hs'

/-! ## Sections -/

/-- A section whose key, value and entries are all as they may be. -/
def AllowedSection (m : Memory) (dir key : String) (v : Toml.Value) : Prop :=
  PlainName key ∧ ∃ entries, v = .table entries ∧
    ∀ entry w, (KeyMap.ofList entries).get? entry = some w → AllowedEntry m dir key entry w

/-- What is wrong with a section: with its key, else with its value, else with the least of its
entries that is not allowed. -/
inductive SectionFault (m : Memory) (dir key : String) :
    Toml.Value → ConfigurationError → Prop
  | key (v : Toml.Value) : ¬ PlainName key → SectionFault m dir key v (.invalidName key)
  | value {v : Toml.Value} : PlainName key → (∀ entries, v ≠ .table entries) →
      SectionFault m dir key v (.notTable key)
  | entry {entries : List (String × Toml.Value)} {entry : String} {w : Toml.Value}
      {e : ConfigurationError} : PlainName key →
      (KeyMap.ofList entries).get? entry = some w → EntryFault m dir key entry w e →
      (∀ entry' w', (KeyMap.ofList entries).get? entry' = some w' → entry' < entry →
        AllowedEntry m dir key entry' w') →
      SectionFault m dir key (.table entries) e

private theorem foldlM_addEntry_eq_error_iff {es : KeyMap Toml.Value}
    (hes : ∀ x ∈ es.entries, x.2.Bounded) :
    es.entries.foldlM (fun s x => addEntry m.textAt dir key s x.1 x.2) s = .error e ↔
      FirstFault (fun x e => EntryFault m dir key x.1 x.2 e) es.entries e := by
  refine foldlM_eq_error_iff_of_forall (fun x hx t e' => ?_) s
  exact addEntry_eq_error_iff (hes x hx)

private theorem firstFault_entries_iff {es : KeyMap Toml.Value}
    (hes : ∀ x ∈ es.entries, x.2.Bounded) :
    FirstFault (fun x e => EntryFault m dir key x.1 x.2 e) es.entries e ↔
      ∃ entry w, es.get? entry = some w ∧ EntryFault m dir key entry w e ∧
        ∀ entry' w', es.get? entry' = some w' → entry' < entry →
          AllowedEntry m dir key entry' w' :=
  Located.firstFault_entries_iff fun entry w hw =>
    forall_not_entryFault_iff (hes (entry, w) (KeyMap.get?_eq_some_iff.mp hw))

private theorem ofValue_eq_error_iff (hv : v.Bounded) :
    ofValue m.textAt dir key v = .error e ↔ SectionFault m dir key v e := by
  unfold ofValue
  split
  · rename_i hkey
    have hplain : ¬ PlainName key := by simpa [← canNameFile_iff] using hkey
    constructor
    · intro h
      cases h
      exact .key v hplain
    · intro h
      cases h with
      | key _ => rfl
      | value hplain' => exact absurd hplain' hplain
      | entry hplain' => exact absurd hplain' hplain
  · rename_i hkey
    have hplain : PlainName key := by simpa [← canNameFile_iff] using hkey
    split
    · rename_i entries
      rw [foldlM_addEntry_eq_error_iff hv.of_mem_ofList, firstFault_entries_iff hv.of_mem_ofList]
      constructor
      · intro h
        obtain ⟨entry, w, hw, hfault, hless⟩ := h
        exact .entry hplain hw hfault hless
      · intro h
        cases h with
        | key _ hnot => exact absurd hplain hnot
        | value _ htable => exact absurd rfl (htable entries)
        | entry _ hw hfault hless => exact ⟨_, _, hw, hfault, hless⟩
    · rename_i htable
      constructor
      · intro h
        cases h
        exact .value hplain htable
      · intro h
        cases h with
        | key _ hnot => exact absurd hplain hnot
        | value => rfl
        | @entry entries => exact absurd rfl (htable entries)

private theorem forall_not_sectionFault_iff (hv : v.Bounded) :
    (∀ e, ¬ SectionFault m dir key v e) ↔ AllowedSection m dir key v := by
  constructor
  · intro h
    have hplain : PlainName key := by
      by_contra hnot
      exact h _ (.key v hnot)
    rcases exists_or_forall_not fun entries => v = .table entries with ⟨entries, rfl⟩ | htable
    · have hnone : ∀ e, ¬ FirstFault (fun x e => EntryFault m dir key x.1 x.2 e)
          (KeyMap.ofList entries).entries e := by
        intro e hfirst
        obtain ⟨entry, w, hw, hfault, hless⟩ := (firstFault_entries_iff hv.of_mem_ofList).mp hfirst
        exact h e (.entry hplain hw hfault hless)
      refine ⟨hplain, entries, rfl, fun entry w hw => ?_⟩
      exact allowedEntry_of_forall_not_fault
        (forall_not_firstFault_iff.mp hnone (entry, w) (KeyMap.get?_eq_some_iff.mp hw))
    · exact absurd (.value hplain htable) (h _)
  · rintro ⟨hplain, entries, rfl, hall⟩ e hfault
    cases hfault with
    | key _ hnot => exact hnot hplain
    | value _ htable => exact htable entries rfl
    | @entry _ entry w _ _ hw hfault _ =>
      have hw' := hv.of_mem_ofList (entry, w) (KeyMap.get?_eq_some_iff.mp hw)
      exact (forall_not_entryFault_iff hw').mpr (hall entry w hw) e hfault

end Section

/-! ## Configurations -/

namespace Configuration

open Section

variable {table : KeyMap Toml.Value} {e : ConfigurationError}

private theorem ofTable_eq_error_iff_firstFault (htable : ∀ x ∈ table.entries, x.2.Bounded) :
    ofTable m.textAt dir table = .error e ↔
      FirstFault (fun x e => SectionFault m dir x.1 x.2 e) table.entries e := by
  rw [ofTable, bind_pure_eq_error_iff]
  refine foldlM_eq_error_iff_of_forall (fun x hx sections e' => ?_) _
  rw [bind_pure_eq_error_iff, ofValue_eq_error_iff (htable x hx)]

private theorem forall_not_sectionFault_iff_of_get? (htable : ∀ x ∈ table.entries, x.2.Bounded)
    (hv : table.get? key = some v) :
    (∀ e, ¬ SectionFault m dir key v e) ↔ AllowedSection m dir key v :=
  forall_not_sectionFault_iff (htable (key, v) (KeyMap.get?_eq_some_iff.mp hv))

theorem ofTable_eq_error_iff (htable : ∀ x ∈ table.entries, x.2.Bounded) :
    ofTable m.textAt dir table = .error e ↔ ∃ key v, table.get? key = some v ∧
      SectionFault m dir key v e ∧ ∀ key' v', table.get? key' = some v' → key' < key →
        AllowedSection m dir key' v' := by
  rw [ofTable_eq_error_iff_firstFault htable]
  exact Located.firstFault_entries_iff fun key v hv => forall_not_sectionFault_iff_of_get? htable hv

theorem exists_ofTable_iff (htable : ∀ x ∈ table.entries, x.2.Bounded) :
    (∃ config, ofTable m.textAt dir table = .ok config) ↔
      ∀ key v, table.get? key = some v → AllowedSection m dir key v := by
  simp only [exists_ok_iff, ne_eq, ofTable_eq_error_iff_firstFault htable]
  rw [forall_not_firstFault_iff]
  constructor
  · intro h key v hv
    exact (forall_not_sectionFault_iff_of_get? htable hv).mp
      (h (key, v) (KeyMap.get?_eq_some_iff.mp hv))
  · intro h x hx
    exact (forall_not_sectionFault_iff_of_get? htable (KeyMap.get?_eq_some_iff.mpr hx)).mpr
      (h _ _ (KeyMap.get?_eq_some_iff.mpr hx))

/-! ## Runs -/

variable {texts texts' : String → Except FileError String}

private theorem addEntry_congr (h : ∀ path, entry = "preamble" → v = .string path →
      texts (Path.join dir path) = texts' (Path.join dir path)) :
    addEntry texts dir key s entry v = addEntry texts' dir key s entry v := by
  unfold addEntry
  split
  case h_3 =>
    cases v with
    | string path =>
      have hpath := h path rfl rfl
      simp only [textOf, preambleText, bind, Except.bind, hpath]
    | _ => rfl
  all_goals rfl

private theorem ofValue_congr (h : ∀ entries path, v = .table entries →
      ("preamble", .string path) ∈ entries →
      texts (Path.join dir path) = texts' (Path.join dir path)) :
    ofValue texts dir key v = ofValue texts' dir key v := by
  unfold ofValue
  split
  · rfl
  · split
    · rename_i entries
      refine foldlM_congr (fun entry hentry s => addEntry_congr fun path hname hpath => ?_) _
      have hmem : entry ∈ entries := KeyMap.mem_of_mem_ofList hentry
      rw [← Prod.eta entry, hname, hpath] at hmem
      exact h entries path rfl hmem
    · rfl

private theorem join_mem_preamblePaths {entries : List (String × Toml.Value)}
    (hsection : (key, .table entries) ∈ table.entries)
    (hentry : ("preamble", .string path) ∈ entries) :
    Path.join dir path ∈ preamblePaths dir table := by
  have hvalue : .table entries ∈ table.values := List.mem_map_of_mem hsection
  exact List.mem_flatMap.mpr ⟨_, hvalue, List.mem_filterMap.mpr ⟨_, hentry, rfl⟩⟩

/-- Only texts of preambles are asked for. -/
theorem ofTable_congr (h : ∀ path ∈ preamblePaths dir table, texts path = texts' path) :
    ofTable texts dir table = ofTable texts' dir table := by
  have hvalue : ∀ x ∈ table.entries,
      ofValue texts dir x.1 x.2 = ofValue texts' dir x.1 x.2 := by
    intro x hx
    refine ofValue_congr fun entries path htable hentry => ?_
    rw [← Prod.eta x, htable] at hx
    exact h _ (join_mem_preamblePaths hx hentry)
  rw [ofTable, ofTable]
  exact congrArg (· >>= _) (foldlM_congr (fun x hx sections => by rw [hvalue x hx]) _)

private theorem run_mapM_readText (paths : List String) (m : Memory) :
    (paths.mapM fun path => do return (path, ← Disk.readText path) :
      StateM Memory (List (String × Except FileError String))).run m =
      (paths.map fun path => (path, m.textAt path), m) := by
  induction paths with
  | nil => rfl
  | cons path paths ih =>
    have hread : (do return (path, ← Disk.readText path) : StateM Memory _).run m =
        ((path, m.textAt path), m) := by
      rw [Disk.run_bind, Memory.run_readText]
      rfl
    rw [List.mapM_cons, Disk.run_bind, hread, Disk.run_bind, ih]
    rfl

private theorem lookup_map_of_mem {f : String → Except FileError String} {paths : List String}
    (h : path ∈ paths) : (paths.map fun path => (path, f path)).lookup path = some (f path) := by
  induction paths with
  | nil => cases h
  | cons first paths ih =>
    by_cases hfirst : path = first
    · rw [List.map_cons, hfirst, List.lookup_cons_self]
    · rw [List.map_cons, List.lookup_cons, beq_false_of_ne hfirst]
      exact ih (List.mem_of_ne_of_mem hfirst h)

/-- A run reads preambles as they are and changes nothing. -/
theorem run_fromText (dir text : String) (m : Memory) :
    (fromText dir text : StateM Memory _).run m = (ofText m.textAt dir text, m) := by
  unfold fromText ofText
  cases Configuration.table text with
  | error e => rfl
  | ok table =>
    dsimp only
    rw [Disk.run_bind, run_mapM_readText]
    refine Prod.ext (ofTable_congr fun path hpath => ?_) rfl
    dsimp only
    rw [lookup_map_of_mem hpath]
    rfl

theorem bounded_of_table {text : String} {table : KeyMap Toml.Value}
    (h : Configuration.table text = .ok table) :
    ∀ x ∈ table.entries, x.2.Bounded := by
  unfold Configuration.table at h
  split at h
  · rename_i t hparse
    cases h
    exact Toml.bounded_parse? hparse
  · cases h

theorem run_fromText_of_table {dir text : String} {m : Memory} {table : KeyMap Toml.Value}
    (h : Configuration.table text = .ok table) :
    (fromText dir text : StateM Memory _).run m = (ofTable m.textAt dir table, m) := by
  rw [run_fromText, ofText, h]
  rfl

/-- A configuration is accepted if and only if all its sections are. Otherwise the error is that of
the least section that is not: its key that is no plain file name, else its value that is no table,
else the least of its entries that is not allowed. -/
theorem fromText_acceptance (dir : String) (m : Memory) {text : String}
    (htable : Configuration.table text = .ok table) :
    ∃ r, (fromText dir text : StateM Memory _).run m = (r, m) ∧
      ((∃ config, r = .ok config) ↔
        ∀ key v, table.get? key = some v → AllowedSection m dir key v) ∧
      ∀ e, r = .error e ↔ ∃ key v, table.get? key = some v ∧ SectionFault m dir key v e ∧
        ∀ key' v', table.get? key' = some v' → key' < key → AllowedSection m dir key' v' := by
  have hbounded := bounded_of_table htable
  exact ⟨ofTable m.textAt dir table, run_fromText_of_table htable, exists_ofTable_iff hbounded,
    fun e => ofTable_eq_error_iff hbounded⟩

/-- An unknown entry, in a section after one whose key is empty. -/
def namelessText : String := "[users]\ncolour = 1\n\n[\"\"]\n"

theorem fromText_acceptance_nameless :
    ∃ table, Configuration.table namelessText = .ok table ∧
      (fromText "" namelessText : StateM Memory _).run .empty =
        (.error (.invalidName ""), .empty) := by
  have hkeys : (Configuration.table namelessText).toOption.map (·.keys) = some ["", "users"] := by
    decide +kernel
  cases htable : Configuration.table namelessText with
  | error e => simp [htable, Except.toOption] at hkeys
  | ok table =>
    have hkeys : table.keys = ["", "users"] := by simpa [htable, Except.toOption] using hkeys
    obtain ⟨v, hv⟩ := KeyMap.mem_keys_iff.mp (hkeys ▸ List.mem_cons_self : "" ∈ table.keys)
    obtain ⟨r, hrun, -, herror⟩ := fromText_acceptance "" .empty htable
    have hfault : r = .error (.invalidName "") := by
      refine (herror _).mpr ⟨"", v, hv, .key v fun hplain => hplain.1 rfl, fun key' _ _ hlt => ?_⟩
      exact absurd hlt (List.not_lt_nil key'.toList)
    exact ⟨table, rfl, hfault ▸ hrun⟩

end Configuration

end SchemaDocs
