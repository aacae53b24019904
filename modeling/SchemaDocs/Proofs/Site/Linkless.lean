import SchemaDocs.Proofs.Files.Mirror
import SchemaDocs.Proofs.Site.Output

/-!
# Sites without links

A run in memory gives what it gives in a file system with links in which there are none, and leaves
the same behind. Main statements: `run_generate_alike`, `run_generate_ofMemory`.
-/

namespace SchemaDocs.Site

open Doc (Chapter)
open Volume (Mirrors)

variable {m : Memory} {v : Volume}

private theorem unlinked_of_mirrors (h : Mirrors m v) (d : Location) (keys : List String) :
    Unlinked v d keys := by
  intro key _
  exact ⟨(h.places _).ne_link, fun n l hfile hl => h.single l _ n hl hfile⟩

private theorem run_writeChapter_alike (h : Mirrors m v) (path : String) (c : Chapter) :
    RunAlike Mirrors ((writeChapter path c : StateM Memory _).run m)
      ((writeChapter path c : StateM Volume _).run v) := by
  rw [run_writeChapter, writeChapter, Disk.run_bind]
  have hcreate := h.create path
  cases hmade : m.create path with
  | error e =>
    rw [hmade] at hcreate
    generalize hmade' : v.create path = made' at hcreate
    cases hcreate
    rw [Volume.run_create_of_error hmade']
    exact ⟨rfl, h⟩
  | ok made =>
    rw [hmade] at hcreate
    generalize hmade' : v.create path = made' at hcreate
    cases hcreate with
    | @ok _ made' hmade'' =>
      obtain ⟨hfile, h'⟩ := hmade''
      rw [Volume.run_create_of_ok hmade']
      exact ⟨rfl, h'.save_file hfile _⟩

private theorem run_writeChapters_alike (h : Mirrors m v) (dir : String)
    (es : List (String × Chapter)) :
    RunAlike Mirrors ((writeChapters dir es : StateM Memory _).run m)
      ((writeChapters dir es : StateM Volume _).run v) := by
  induction es generalizing m v with
  | nil => exact ⟨rfl, h⟩
  | cons entry es ih =>
    obtain ⟨key, c⟩ := entry
    rw [run_writeChapters_cons, run_writeChapters_cons]
    have hfirst := run_writeChapter_alike h (filePath dir key) c
    generalize (writeChapter (filePath dir key) c : StateM Memory _).run m = x,
      (writeChapter (filePath dir key) c : StateM Volume _).run v = y at hfirst
    obtain ⟨result, m₁⟩ := x
    obtain ⟨_, v₁⟩ := y
    obtain ⟨rfl, h₁⟩ := hfirst
    cases result with
    | error e => exact ⟨rfl, h₁⟩
    | ok =>
      have hrest := ih h₁
      dsimp only
      generalize (writeChapters dir es : StateM Memory _).run m₁ = x,
        (writeChapters dir es : StateM Volume _).run v₁ = y at hrest
      obtain ⟨result, m₂⟩ := x
      obtain ⟨_, v₂⟩ := y
      obtain ⟨rfl, h₂⟩ := hrest
      cases result with
      | error e => exact ⟨rfl, h₂⟩
      | ok paths => exact ⟨rfl, h₂⟩

/-- In memory and in a file system without links a run ends alike, and leaves the same. -/
theorem run_generate_alike (h : Mirrors m v) (input : Except FileError ByteArray)
    (config : Configuration) (dir : String) :
    RunAlike Mirrors ((generate input config dir : StateM Memory _).run m)
      ((generate input config dir : StateM Volume _).run v) := by
  rw [run_generate, run_generate]
  cases chaptersOf input config with
  | error e => exact ⟨rfl, h⟩
  | ok chapters =>
    have hdirs : RunAlike Mirrors ((Disk.createDirs dir : StateM Memory _).run m)
        ((Disk.createDirs dir : StateM Volume _).run v) := h.createDirs dir
    dsimp only
    generalize (Disk.createDirs dir : StateM Memory _).run m = x,
      (Disk.createDirs dir : StateM Volume _).run v = y at hdirs
    obtain ⟨result, m₁⟩ := x
    obtain ⟨_, v₁⟩ := y
    obtain ⟨rfl, h₁⟩ := hdirs
    cases result with
    | error e => exact ⟨rfl, h₁⟩
    | ok => exact run_writeChapters_alike h₁ dir chapters.entries

/-- A run in memory is one in a file system where no section's entry is a link. -/
theorem run_generate_ofMemory (hrooted : m.Rooted) (input : Except FileError ByteArray)
    (config : Configuration) (dir : String) :
    RunAlike Mirrors ((generate input config dir : StateM Memory _).run m)
        ((generate input config dir : StateM Volume _).run (.ofMemory m)) ∧
      ∀ d keys, Unlinked (.ofMemory m) d keys :=
  ⟨run_generate_alike (Volume.mirrors_ofMemory hrooted) input config dir,
    unlinked_of_mirrors (Volume.mirrors_ofMemory hrooted)⟩

end SchemaDocs.Site
