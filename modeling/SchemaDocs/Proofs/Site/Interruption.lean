import SchemaDocs.Proofs.Site.Output

/-!
# Runs that fail

A run that fails before it makes its first file leaves all files as they were. After that it leaves
behind the files of the sections in front of the one that failed, complete and in their places; a
file that stood there before is overwritten. So files are as they were just when each of those
already held what was written. Main statement: `generate_interrupted`.
-/

namespace SchemaDocs.Site

open Doc (Chapter)
open Section (fileName)

variable {m m' : Memory} {dir : String} {d : Location} {input : Except FileError ByteArray}
  {config : Configuration} {e : SiteError} {before : List (String × Chapter)}

/-- No file is made, changed or removed. -/
def SameFiles (m m' : Memory) : Prop :=
  ∀ l content, m'.get? l = some (.file content) ↔ m.get? l = some (.file content)

/-- How a run from `m` to `m'` fails, and the chapters that it has written before. -/
inductive Interrupted (input : Except FileError ByteArray) (config : Configuration) (dir : String) :
    Memory → Memory → SiteError → List (String × Chapter) → Prop
  /-- There are no chapters to write, and nothing is done. -/
  | chapters {m : Memory} {e : SiteError} : chaptersOf input config = .error e →
      Interrupted input config dir m m e []
  | directory {chapters : KeyMap Chapter} {cause : FileError} {m m' : Memory} :
      chaptersOf input config = .ok chapters → m.createDirs dir = (.error cause, m') →
      Interrupted input config dir m m' (.create dir cause) []
  | file {chapters : KeyMap Chapter} {before after : List (String × Chapter)} {key : String}
      {c : Chapter} {cause : FileError} {m m' : Memory} :
      chaptersOf input config = .ok chapters → chapters.entries = before ++ (key, c) :: after →
      m'.create (filePath dir key) = .error cause →
      Interrupted input config dir m m' (.create (filePath dir key) cause) before

private theorem run_generate_of_split {chapters : KeyMap Chapter} {after : List (String × Chapter)}
    {key : String} {c : Chapter} {cause : FileError} {m₁ : Memory}
    (hchapters : chaptersOf input config = .ok chapters) (hdirs : m.createDirs dir = (.ok (), m₁))
    (hsplit : chapters.entries = before ++ (key, c) :: after) (hwritten : Written dir before m₁ m')
    (hfail : m'.create (filePath dir key) = .error cause) :
    (generate input config dir : StateM Memory _).run m =
      (.error (.create (filePath dir key) cause), m') := by
  rw [run_generate, hchapters, run_createDirs, hdirs]
  dsimp only
  rw [hsplit]
  exact hwritten.run_append (writeChapter_eq_error_iff.mpr ⟨cause, hfail, rfl, rfl⟩)

private theorem exists_interrupted (hconfig : config.Loaded)
    (h : (generate input config dir : StateM Memory _).run m = (.error e, m')) :
    ∃ before d, Interrupted input config dir m m' e before ∧ Leaves dir d before m m' := by
  rw [run_generate] at h
  split at h
  · rename_i hchapters
    cases h
    exact ⟨[], [], .chapters hchapters, leaves_nil (Memory.Made.refl m)⟩
  · rename_i chapters hchapters
    split at h
    · rename_i hdirs
      cases h
      obtain ⟨d, hleaves⟩ :=
        Written.nil.exists_leaves_of_loaded hconfig hchapters (List.nil_sublist _) hdirs
      exact ⟨[], d, .directory hchapters hdirs, hleaves⟩
    · rename_i m₁ hdirs
      obtain ⟨before, m₂, hwritten, rfl | ⟨key, c, after, e', m₃, hsplit, hfail⟩⟩ :=
        exists_written dir chapters.entries m₁
      · rw [hwritten.run] at h
        cases h
      · rw [hsplit, hwritten.run_append hfail] at h
        cases h
        obtain ⟨cause, hcreate, rfl, rfl⟩ := writeChapter_eq_error_iff.mp hfail
        have hbefore : before.Sublist chapters.entries :=
          hsplit ▸ List.sublist_append_left before _
        obtain ⟨d, hleaves⟩ :=
          hwritten.exists_leaves_of_loaded hconfig hchapters hbefore hdirs
        exact ⟨before, d, .file hchapters hsplit hcreate, hleaves⟩

private theorem Leaves.sameFiles_iff (h : Leaves dir d before m m') : SameFiles m m' ↔
    ∀ x ∈ before, m.get? (d ++ [x.1 ++ ".json"]) =
      some (.file (prettyText x.2.toJson ++ "\n").toUTF8) := by
  constructor
  · intro hsame x hx
    exact (hsame _ _).mp (h.contents x hx)
  · intro hthere l content
    by_cases hl : ∃ x ∈ before, l = d ++ [x.1 ++ ".json"]
    · obtain ⟨x, hx, rfl⟩ := hl
      rw [h.contents x hx, hthere x hx]
    · have hother : ∀ x ∈ before, l ≠ d ++ [x.1 ++ ".json"] := fun x hx heq => hl ⟨x, hx, heq⟩
      rcases h.frame l hother with hsame | ⟨hfree, hnew, -⟩
      · rw [hsame]
      · rw [hfree, hnew]
        simp

/-- What a run that fails leaves behind, and when that changes no file. -/
theorem generate_interrupted (hconfig : config.Loaded)
    (h : (generate input config dir : StateM Memory _).run m = (.error e, m')) :
    ∃ before d, Interrupted input config dir m m' e before ∧ Leaves dir d before m m' ∧
      (SameFiles m m' ↔ ∀ x ∈ before, m.get? (d ++ [x.1 ++ ".json"]) =
        some (.file (prettyText x.2.toJson ++ "\n").toUTF8)) := by
  obtain ⟨before, d, hfailed, hleaves⟩ := exists_interrupted hconfig h
  exact ⟨before, d, hfailed, hleaves, hleaves.sameFiles_iff⟩

/-- An output directory in which a directory has the name of a section's file. -/
def blockedAt (key : String) : Memory :=
  ⟨[(["home"], .directory), (["home", "out"], .directory),
    (["home", "out", fileName key], .directory)], ["home"]⟩

theorem generate_interrupted_shop : ∃ m' before d, salesConfiguration.Loaded ∧
    (generate shopInput salesConfiguration "out" : StateM Memory _).run (blockedAt "sales") =
      (.error (.create "out/sales.json" .isADirectory), m') ∧
    Interrupted shopInput salesConfiguration "out" (blockedAt "sales") m'
      (.create "out/sales.json" .isADirectory) before ∧
    Leaves "out" d before (blockedAt "sales") m' ∧
    (SameFiles (blockedAt "sales") m' ↔ ∀ x ∈ before, (blockedAt "sales").get?
      (d ++ [x.1 ++ ".json"]) = some (.file (prettyText x.2.toJson ++ "\n").toUTF8)) := by
  obtain ⟨m', hrun⟩ : ∃ m', (generate shopInput salesConfiguration "out" :
      StateM Memory _).run (blockedAt "sales") =
        (.error (.create "out/sales.json" .isADirectory), m') :=
    ⟨_, run_generate_of_split chaptersOf_shopInput rfl rfl (.cons rfl .nil) rfl⟩
  obtain ⟨before, d, hfailed, hleaves, hsame⟩ :=
    generate_interrupted loaded_salesConfiguration hrun
  exact ⟨m', before, d, loaded_salesConfiguration, hrun, hfailed, hleaves, hsame⟩

/-- Two sections without members. -/
def pairConfiguration : Configuration :=
  ⟨KeyMap.ofList [("a", Section.initial "a"), ("b", Section.initial "b")]⟩

private theorem loaded_pairConfiguration : pairConfiguration.Loaded := by
  have hentries : ((Configuration.fromText "" "[a]\n[b]\n" : StateM Memory _).run
      .empty).1.toOption.map (·.sections.entries) = some pairConfiguration.sections.entries := by
    decide +kernel
  exact Configuration.loaded_of_entries hentries

theorem packages_empty : (Schema.mk []).packages = .ok [] := by
  have hordered : (Schema.mk []).ordered = [] := by simp [Schema.ordered]
  rw [Schema.packages_eq_ok_iff, hordered]
  exact ⟨rfl, rfl⟩

/-- The input that states a schema without files. -/
def emptyInput : Except FileError ByteArray := .ok (prettyText (Schema.mk []).toJson).toUTF8

private theorem chaptersOf_emptyInput : chaptersOf emptyInput pairConfiguration =
    .ok (KeyMap.ofList [("a", ⟨"a", "", 0, []⟩), ("b", ⟨"b", "", 0, []⟩),
      ("default", ⟨"default", "", 0, []⟩)]) := by
  have hreads : Reads emptyInput ⟨[]⟩ := reads_toJson (by decide)
  have hordered : (Schema.mk []).ordered = [] := by simp [Schema.ordered]
  have hprune : prune [] = .ok ([], KeyMap.empty) := by
    refine prune_eq_ok_iff.mpr ⟨rfl, ?_, rfl⟩
    rw [reachable, List.flatMap_nil, Scope.walk]
  refine chaptersOf_eq_ok_iff.mpr ⟨_, hreads, chapters_eq_ok_iff.mpr
    ⟨_, _, _, packages_empty, hprune, ?_⟩⟩
  rw [hordered]
  rfl

/-- The file of the first section is made, and stays when the second cannot be. -/
theorem generate_leaves_file : ∃ m', pairConfiguration.Loaded ∧
    (generate emptyInput pairConfiguration "out" : StateM Memory _).run (blockedAt "b") =
      (.error (.create "out/b.json" .isADirectory), m') ∧
    (blockedAt "b").get? ["home", "out", "a.json"] = none ∧
    (∃ content, m'.get? ["home", "out", "a.json"] = some (.file content)) ∧
    ¬ SameFiles (blockedAt "b") m' := by
  obtain ⟨m', hrun, content, hmade⟩ : ∃ m',
      (generate emptyInput pairConfiguration "out" : StateM Memory _).run (blockedAt "b") =
        (.error (.create "out/b.json" .isADirectory), m') ∧
      ∃ content, m'.get? ["home", "out", "a.json"] = some (.file content) :=
    ⟨_, run_generate_of_split chaptersOf_emptyInput rfl rfl (.cons rfl .nil) rfl, _, rfl⟩
  have hfree : (blockedAt "b").get? ["home", "out", "a.json"] = none := rfl
  refine ⟨m', loaded_pairConfiguration, hrun, hfree, ⟨content, hmade⟩, fun hsame => ?_⟩
  have hthere := (hsame _ content).mp hmade
  rw [hfree] at hthere
  cases hthere

end SchemaDocs.Site
