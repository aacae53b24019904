import SchemaDocs.Proofs.Files.Memory
import SchemaDocs.Proofs.Phase
import SchemaDocs.Proofs.Section.Assignment
import SchemaDocs.Proofs.Section.Configuration
import SchemaDocs.Site

/-!
# Runs that write a site

A run knows its chapters before it touches a file. It then makes the output directory and writes the
chapters in the order of their keys, up to the first file that cannot be made. As keys name files of
their own, each chapter that was written stands in its file, and no other file has changed.
-/

namespace SchemaDocs.Site

open Doc (Chapter)
open Disk (run_bind)
open Memory (Grows)
open Section (fileName canNameFile)

variable {m m' : Memory} {dir : String} {d : Location} {es : List (String × Chapter)}
  {input : Except FileError ByteArray} {config : Configuration} {chapters : KeyMap Chapter}

/-! ## Chapters -/

theorem chapters_eq_ok_iff {s : Schema} : Site.chapters s config = .ok chapters ↔
    ∃ ps pruned used, s.packages = .ok ps ∧ prune ps = .ok (pruned, used) ∧
      assign config (selected s.ordered pruned) = .ok chapters := by
  simp only [Site.chapters, bind_eq_ok_iff, mapError_eq_ok_iff, Prod.exists, exists_and_left]

/-- The input holds the text of a schema. -/
def Reads (input : Except FileError ByteArray) (s : Schema) : Prop :=
  ∃ text, input.bind decodeText = .ok text ∧ Schema.read.document? text = some s

theorem Reads.unique {s s' : Schema} (h : Reads input s) (h' : Reads input s') : s = s' := by
  obtain ⟨text, htext, hs⟩ := h
  obtain ⟨text', htext', hs'⟩ := h'
  rw [htext] at htext'
  cases htext'
  rw [hs] at hs'
  exact Option.some.inj hs'

theorem Reads.chaptersOf_eq {s : Schema} (h : Reads input s) :
    chaptersOf input config = Site.chapters s config := by
  obtain ⟨text, htext, hread⟩ := h
  rw [chaptersOf, htext]
  dsimp only
  rw [hread]

theorem reads_toJson {s : Schema} (h : s.toJson.nesting < 128) :
    Reads (.ok (prettyText s.toJson).toUTF8) s := by
  have hread := readBack s.toJson_plain s.reads _ (List.mem_cons_of_mem _ List.mem_cons_self)
  rw [if_pos h] at hread
  refine ⟨prettyText s.toJson, ?_, hread⟩
  rw [Except.bind, decodeText_toUTF8]

theorem chaptersOf_eq_ok_iff : chaptersOf input config = .ok chapters ↔
    ∃ s, Reads input s ∧ Site.chapters s config = .ok chapters := by
  unfold chaptersOf Reads
  cases input.bind decodeText with
  | error e => simp
  | ok text =>
    cases hread : Schema.read.document? text with
    | none => simp [hread]
    | some s => simp [hread]

theorem mem_keys_of_chaptersOf (h : chaptersOf input config = .ok chapters) (key : String) :
    key ∈ chapters.keys ↔ key = defaultKey ∨ key ∈ config.sections.keys := by
  obtain ⟨s, -, hchapters⟩ := chaptersOf_eq_ok_iff.mp h
  obtain ⟨ps, pruned, used, -, -, hassign⟩ := chapters_eq_ok_iff.mp hchapters
  obtain ⟨cs, -, hcs⟩ := assign_eq_ok_iff.mp hassign
  exact mem_keys_chapters hcs key

theorem canNameFile_of_chaptersOf (hconfig : config.Loaded)
    (h : chaptersOf input config = .ok chapters) {key : String} (hkey : key ∈ chapters.keys) :
    canNameFile key = true := by
  rcases (mem_keys_of_chaptersOf h key).mp hkey with rfl | hkey
  · exact Section.canNameFile_default
  · exact hconfig.canNameFile hkey

/-! ## Writing -/

section
variable {σ : Type} [Disk (StateM σ)] {s s' : σ}

/-- Chapters written one after the other, each without fail. -/
inductive Written (dir : String) : List (String × Chapter) → σ → σ → Prop
  | nil {s : σ} : Written dir [] s s
  | cons {key : String} {c : Chapter} {rest : List (String × Chapter)} {s s₁ s' : σ} :
    (writeChapter (filePath dir key) c : StateM σ _).run s = (.ok (), s₁) →
      Written dir rest s₁ s' → Written dir ((key, c) :: rest) s s'

theorem run_writeChapters_cons (key : String) (c : Chapter) (s : σ) :
    (writeChapters dir ((key, c) :: es) : StateM σ _).run s =
      match (writeChapter (filePath dir key) c : StateM σ _).run s with
      | (.error e, s₁) => (.error e, s₁)
      | (.ok (), s₁) =>
        match (writeChapters dir es : StateM σ _).run s₁ with
        | (.error e, s') => (.error e, s')
        | (.ok paths, s') => (.ok (filePath dir key :: paths), s') := by
  rw [writeChapters, run_bind]
  rcases (writeChapter (filePath dir key) c : StateM σ _).run s with ⟨_ | _, s₁⟩
  · rfl
  · dsimp only
    rw [run_bind]
    rcases (writeChapters dir es : StateM σ _).run s₁ with ⟨_ | _, s'⟩
    · rfl
    · rfl

theorem Written.run (h : Written dir es s s') :
    (writeChapters dir es : StateM σ _).run s =
      (.ok (es.map fun e => filePath dir e.1), s') := by
  induction h with
  | nil => rfl
  | cons hwrite _ ih =>
    rw [run_writeChapters_cons, hwrite]
    simp only [ih, List.map_cons]

theorem Written.run_append {key : String} {c : Chapter} {after : List (String × Chapter)}
    {e : SiteError} {s'' : σ} (h : Written dir es s s')
    (hfail : (writeChapter (filePath dir key) c : StateM σ _).run s' = (.error e, s'')) :
    (writeChapters dir (es ++ (key, c) :: after) : StateM σ _).run s = (.error e, s'') := by
  induction h with
  | nil => rw [List.nil_append, run_writeChapters_cons, hfail]
  | cons hwrite _ ih =>
    rw [List.cons_append, run_writeChapters_cons, hwrite]
    simp only [ih hfail]

/-- Either all chapters can be written, or one of them is the first that cannot. -/
theorem exists_written (dir : String) (es : List (String × Chapter)) (s : σ) :
    ∃ before s', Written dir before s s' ∧
      (before = es ∨ ∃ key c after e s'', es = before ++ (key, c) :: after ∧
        (writeChapter (filePath dir key) c : StateM σ _).run s' = (.error e, s'')) := by
  induction es generalizing s with
  | nil => exact ⟨[], s, .nil, .inl rfl⟩
  | cons entry es ih =>
    obtain ⟨key, c⟩ := entry
    rcases hwrite : (writeChapter (filePath dir key) c : StateM σ _).run s with ⟨e | _, s₁⟩
    · exact ⟨[], s, .nil, .inr ⟨key, c, es, e, s₁, rfl, hwrite⟩⟩
    · obtain ⟨before, s', hwritten, hend⟩ := ih s₁
      refine ⟨(key, c) :: before, s', .cons hwrite hwritten, ?_⟩
      rcases hend with rfl | ⟨key', c', after, e, s'', rfl, hfail⟩
      · exact .inl rfl
      · exact .inr ⟨key', c', after, e, s'', rfl, hfail⟩

theorem run_generate (input : Except FileError ByteArray) (config : Configuration) (dir : String)
    (s : σ) :
    (generate input config dir : StateM σ _).run s =
      match chaptersOf input config with
      | .error e => (.error e, s)
      | .ok chapters =>
        match (Disk.createDirs dir : StateM σ _).run s with
        | (.error cause, s₁) => (.error (.create dir cause), s₁)
        | (.ok (), s₁) => (writeChapters dir chapters.entries : StateM σ _).run s₁ := by
  unfold generate
  cases chaptersOf input config with
  | error e => rfl
  | ok chapters =>
    dsimp only
    rw [run_bind]
    rcases (Disk.createDirs dir : StateM σ _).run s with ⟨_ | _, s₁⟩
    · rfl
    · rfl

theorem run_generate_eq_ok_iff {paths : List String} :
    (generate input config dir : StateM σ _).run s = (.ok paths, s') ↔
      ∃ chapters s₁, chaptersOf input config = .ok chapters ∧
        (Disk.createDirs dir : StateM σ _).run s = (.ok (), s₁) ∧
        Written dir chapters.entries s₁ s' ∧ paths = chapters.keys.map (filePath dir) := by
  rw [run_generate]
  constructor
  · intro h
    split at h
    · cases h
    · rename_i chapters hchapters
      split at h
      · cases h
      · rename_i s₁ hdirs
        obtain ⟨before, s₂, hwritten, rfl | ⟨key, c, after, e, s'', hsplit, hfail⟩⟩ :=
          exists_written dir chapters.entries s₁
        · rw [hwritten.run] at h
          cases h
          refine ⟨chapters, s₁, hchapters, hdirs, hwritten, ?_⟩
          rw [KeyMap.keys, List.map_map]
          rfl
        · rw [hsplit, hwritten.run_append hfail] at h
          cases h
  · intro h
    obtain ⟨chapters, s₁, hchapters, hdirs, hwritten, rfl⟩ := h
    rw [hchapters, hdirs, KeyMap.keys, List.map_map]
    exact hwritten.run

end

/-! ## Writing in memory -/

theorem run_create (path : String) (m : Memory) :
    (Disk.create path : StateM Memory _).run m =
      match m.create path with
      | .ok (l, m₁) => (.ok l, m₁)
      | .error e => (.error e, m) := rfl

theorem run_createDirs (dir : String) (m : Memory) :
    (Disk.createDirs dir : StateM Memory _).run m = m.createDirs dir := rfl

theorem run_writeChapter (path : String) (c : Chapter) (m : Memory) :
    (writeChapter path c : StateM Memory _).run m =
      match m.create path with
      | .error e => (.error (.create path e), m)
      | .ok (l, m₁) => (.ok (), m₁.put l (.file (fileText c).toUTF8)) := by
  rw [writeChapter, run_bind, run_create]
  cases m.create path with
  | error e => rfl
  | ok made => rfl

private theorem writeChapter_eq_ok_iff {path : String} {c : Chapter} :
    (writeChapter path c : StateM Memory _).run m = (.ok (), m') ↔
      ∃ l m₁, m.create path = .ok (l, m₁) ∧ m' = m₁.put l (.file (fileText c).toUTF8) := by
  rw [run_writeChapter]
  constructor
  · intro h
    split at h
    · cases h
    · rename_i l m₁ hcreate
      cases h
      exact ⟨l, m₁, hcreate, rfl⟩
  · intro h
    obtain ⟨l, m₁, hcreate, rfl⟩ := h
    rw [hcreate]

theorem writeChapter_eq_error_iff {path : String} {c : Chapter} {e : SiteError} :
    (writeChapter path c : StateM Memory _).run m = (.error e, m') ↔
      ∃ cause, m.create path = .error cause ∧ e = .create path cause ∧ m' = m := by
  rw [run_writeChapter]
  constructor
  · intro h
    split at h
    · rename_i cause hcreate
      cases h
      exact ⟨cause, hcreate, rfl, rfl⟩
    · cases h
  · intro h
    obtain ⟨cause, hcreate, rfl, rfl⟩ := h
    rw [hcreate]

/-! ## What stands in the files -/

/-- Chapters that stand in a directory, each in the file of its key, with nothing else changed. -/
structure Stored (dir : String) (d : Location) (es : List (String × Chapter)) (m m' : Memory) :
    Prop where
  grows : Grows m m'
  files : ∀ e ∈ es, m'.get? (d ++ [fileName e.1]) = some (.file (fileText e.2).toUTF8)
  paths : ∀ e ∈ es, m'.locate (filePath dir e.1) = .ok (d ++ [fileName e.1])
  others : ∀ l, (∀ e ∈ es, l ≠ d ++ [fileName e.1]) → m'.get? l = m.get? l

private theorem Stored.nil : Stored dir d [] m m :=
  ⟨Grows.refl m, by simp, by simp, fun _ _ => rfl⟩

private theorem Stored.cons {key : String} {c : Chapter} {m₁ : Memory} {l : Location}
    (hname : canNameFile key = true) (hnew : ∀ e ∈ es, e.1 ≠ key)
    (hfollow : m.follow dir (Path.names dir) = .ok d)
    (hcreate : m.create (filePath dir key) = .ok (l, m₁))
    (h : Stored dir d es (m₁.put l (.file (fileText c).toUTF8)) m') :
    Stored dir d ((key, c) :: es) m m' := by
  have hslash := Section.slash_not_mem_fileName hname
  have hnonempty := Section.fileName_ne_empty key
  obtain ⟨d', hrefusal, hfollow', hdir, hdots, hsize, rfl, hfile, rfl⟩ :=
    Memory.create_join_eq_ok hslash hnonempty hcreate
  have hgrows : Grows m m' := (Memory.grows_create hcreate _).trans h.grows
  rw [hfollow] at hfollow'
  cases hfollow'
  rw [Memory.put_put] at h
  have hplace : d ++ [fileName key] ≠ [] := by simp
  have hother : ∀ e ∈ es, d ++ [fileName key] ≠ d ++ [fileName e.1] := by
    intro e he heq
    have hsame : fileName key = fileName e.1 := by simpa using heq
    exact hnew e he (Section.fileName_injective hsame).symm
  have hthere : m'.get? (d ++ [fileName key]) = some (.file (fileText c).toUTF8) := by
    rw [h.others _ hother, Memory.get?_put hplace, if_pos rfl]
  refine ⟨hgrows, ?_, ?_, fun l hl => ?_⟩
  · exact List.forall_mem_cons.mpr ⟨hthere, h.files⟩
  · refine List.forall_mem_cons.mpr ⟨?_, h.paths⟩
    exact Memory.locate_join hslash hnonempty hrefusal (hgrows.follow hfollow)
      (hgrows.directories d hdir) hdots hsize (Option.isSome_of_mem hthere)
  · obtain ⟨hl, hrest⟩ := List.forall_mem_cons.mp hl
    rw [h.others l hrest, Memory.get?_put hplace, if_neg hl]

/-- The directory stays the same for all files: what is followed before a file is made is followed
after it. -/
theorem Written.stored (h : Written dir es m m') (hnames : ∀ e ∈ es, canNameFile e.1 = true)
    (hkeys : (es.map (·.1)).Nodup) (hfollow : m.follow dir (Path.names dir) = .ok d) :
    Stored dir d es m m' := by
  induction h with
  | nil => exact Stored.nil
  | @cons key c rest m m₂ m' hwrite _ ih =>
    obtain ⟨l, m₁, hcreate, rfl⟩ := writeChapter_eq_ok_iff.mp hwrite
    obtain ⟨hname, hnames⟩ := List.forall_mem_cons.mp hnames
    obtain ⟨hnew, hkeys⟩ := List.nodup_cons.mp hkeys
    have hdistinct : ∀ e ∈ rest, e.1 ≠ key := fun e he heq =>
      hnew (List.mem_map.mpr ⟨e, he, heq⟩)
    have hgrows := Memory.grows_create hcreate (fileText c).toUTF8
    exact Stored.cons hname hdistinct hfollow hcreate
      (ih hnames hkeys (hgrows.follow hfollow))

/-- What a run leaves behind: each of the chapters in the file of its key in the directory `d`, to
which the path `dir` leads. Elsewhere it only makes directories, where nothing was and where the
path goes. -/
structure Leaves (dir : String) (d : Location) (es : List (String × Chapter)) (m m' : Memory) :
    Prop where
  directory : es ≠ [] → m'.LeadsTo dir d
  children : ∀ e ∈ es, m'.locate (Path.join dir (e.1 ++ ".json")) = .ok (d ++ [e.1 ++ ".json"])
  contents : ∀ e ∈ es,
    m'.get? (d ++ [e.1 ++ ".json"]) = some (.file (prettyText e.2.toJson ++ "\n").toUTF8)
  frame : ∀ l, (∀ e ∈ es, l ≠ d ++ [e.1 ++ ".json"]) → m'.get? l = m.get? l ∨
    m.get? l = none ∧ m'.get? l = some .directory ∧ m'.Passes dir l

theorem leaves_nil (hmade : Memory.Made dir m m') : Leaves dir [] [] m m' := by
  constructor
  case directory => exact fun hne => absurd rfl hne
  case children => simp
  case contents => simp
  case frame => exact fun l _ => hmade.nodes l

private theorem Stored.leaves {m₁ : Memory} (hmade : Memory.Made dir m m₁)
    (h : Stored dir d es m₁ m')
    (hdirectory : m'.LeadsTo dir d) : Leaves dir d es m m' := by
  constructor
  case directory => exact fun _ => hdirectory
  case children => exact h.paths
  case contents => exact h.files
  case frame =>
    intro l hl
    have hkept := h.others l hl
    rcases hmade.nodes l with hsame | ⟨hfree, hnew, names, hnames, hfollow⟩
    · exact .inl (hkept.trans hsame)
    · exact .inr ⟨hfree, hkept.trans hnew, names, hnames, h.grows.follow hfollow⟩

private theorem Written.exists_leaves {m₁ : Memory} (h : Written dir es m₁ m')
    (hmade : Memory.Made dir m m₁) (hnames : ∀ e ∈ es, canNameFile e.1 = true)
    (hkeys : (es.map (·.1)).Nodup) : ∃ d, Leaves dir d es m m' := by
  cases h with
  | nil => exact ⟨[], leaves_nil hmade⟩
  | @cons key c rest _ _ _ hwrite hrest =>
    obtain ⟨l, m₂, hcreate, rfl⟩ := writeChapter_eq_ok_iff.mp hwrite
    have hslash := Section.slash_not_mem_fileName (hnames (key, c) List.mem_cons_self)
    obtain ⟨d, hrefusal, hfollow, hdir, -⟩ :=
      Memory.create_join_eq_ok hslash (Section.fileName_ne_empty key) hcreate
    have hstored : Stored dir d ((key, c) :: rest) m₁ m' :=
      (Written.cons hwrite hrest).stored hnames hkeys hfollow
    have hleads := Memory.leadsTo_of_join hslash hrefusal (hstored.grows.follow hfollow)
      (hstored.grows.directories d hdir)
    exact ⟨d, hstored.leaves hmade hleads⟩

theorem Written.exists_leaves_of_loaded {m₁ : Memory} {r : Except FileError Unit}
    (h : Written dir es m₁ m') (hconfig : config.Loaded)
    (hchapters : chaptersOf input config = .ok chapters) (hes : es.Sublist chapters.entries)
    (hdirs : m.createDirs dir = (r, m₁)) : ∃ d, Leaves dir d es m m' := by
  have hmade : Memory.Made dir m m₁ := by
    have hmade := Memory.made_createDirs m dir
    rwa [hdirs] at hmade
  refine h.exists_leaves hmade (fun e he => ?_) (chapters.nodup_keys.sublist (hes.map Prod.fst))
  have hkey : e.1 ∈ chapters.keys := List.mem_map_of_mem (hes.subset he)
  exact canNameFile_of_chaptersOf hconfig hchapters hkey

end SchemaDocs.Site
