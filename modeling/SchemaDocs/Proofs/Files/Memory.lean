import SchemaDocs.Files.Memory
import SchemaDocs.Proofs.Except
import SchemaDocs.Proofs.Files.Directories
import SchemaDocs.Proofs.Files.Disk

/-!
# What changes in a file system

Making a file changes one place, inside a directory that the path leads to; making directories
leaves every place that was taken as it was, and takes free ones only where the path goes through.
What is followed before is followed after.
-/

namespace SchemaDocs.Memory

variable {m m₁ m₂ : Memory} {l d : Location} {path dir name : String} {n : Node}

/-! ## What stands where -/

theorem lookup_filter_ne {k : Location} (h : k ≠ l) (nodes : List (Location × Node)) :
    (nodes.filter (·.1 != l)).lookup k = nodes.lookup k := by
  induction nodes with
  | nil => rfl
  | cons node nodes ih =>
    obtain ⟨place, n⟩ := node
    rw [List.filter_cons]
    split
    · rw [List.lookup_cons, List.lookup_cons, ih]
    · rename_i hplace
      have hl : place = l := by simpa using hplace
      rw [List.lookup_cons, hl, beq_false_of_ne h, ih]

theorem get?_put (hl : l ≠ []) (k : Location) :
    (m.put l n).get? k = if k = l then some n else m.get? k := by
  unfold get? put
  split
  · rename_i hk
    rw [if_neg (hk ▸ Ne.symm hl)]
  · split
    · rename_i hk
      simp [hk]
    · rename_i hk
      rw [List.lookup_cons, beq_false_of_ne hk]
      exact lookup_filter_ne hk m.nodes

theorem put_put (n' : Node) : (m.put l n).put l n' = m.put l n' := by
  simp [put, List.filter_filter]

theorem isDirectoryAt_iff : m.isDirectoryAt l = true ↔ m.get? l = some .directory := by
  unfold isDirectoryAt
  split
  · rename_i h
    simp [h]
  · rename_i h
    simpa using h

/-! ## Following names -/

/-- Where a row of names leads, from where the path starts. -/
def follow (m : Memory) (path : String) (names : List String) : Except FileError Location :=
  names.foldlM m.step (m.start path)

theorem isDots_eq_false_iff : isDots name = false ↔ name ≠ "." ∧ name ≠ ".." := by
  simp [isDots]

theorem step_eq_ok (hdir : m.isDirectoryAt d = true) (hdots : isDots name = false)
    (hsize : name.utf8ByteSize ≤ maxName) (htaken : (m.get? (d ++ [name])).isSome = true) :
    m.step d name = .ok (d ++ [name]) := by
  obtain ⟨hdot, hdots⟩ := isDots_eq_false_iff.mp hdots
  have hthere : ¬ (m.get? (d ++ [name])).isNone = true := by
    simpa [Option.isSome_iff_ne_none] using htaken
  rw [step, hdir, if_neg (by decide), if_neg hdot, if_neg hdots, if_neg (Nat.not_lt.mpr hsize),
    if_neg hthere]

/-- A file system in which all that stood in another one can still be followed. -/
structure Grows (m m' : Memory) : Prop where
  home : m'.home = m.home
  directories : ∀ l, m.isDirectoryAt l = true → m'.isDirectoryAt l = true
  taken : ∀ l, (m.get? l).isSome = true → (m'.get? l).isSome = true

theorem Grows.refl (m : Memory) : Grows m m := ⟨rfl, fun _ h => h, fun _ h => h⟩

theorem Grows.trans (h : Grows m m₁) (h' : Grows m₁ m₂) : Grows m m₂ :=
  ⟨h'.home.trans h.home, fun l hl => h'.directories l (h.directories l hl),
    fun l hl => h'.taken l (h.taken l hl)⟩

theorem Grows.start (h : Grows m m₁) (path : String) : m₁.start path = m.start path := by
  rw [Memory.start, Memory.start, h.home]

theorem Grows.step {l' : Location} (h : Grows m m₁) (hstep : m.step l name = .ok l') :
    m₁.step l name = .ok l' := by
  have hdirectory := h.directories l
  have htaken := h.taken (l ++ [name])
  unfold Memory.step at hstep ⊢
  grind [Option.isNone_iff_eq_none, Option.isSome_iff_ne_none]

theorem Grows.follow {names : List String} (h : Grows m m₁)
    (hfollow : m.follow path names = .ok l) : m₁.follow path names = .ok l := by
  unfold Memory.follow at hfollow ⊢
  rw [h.start path]
  generalize m.start path = start at hfollow ⊢
  induction names generalizing start with
  | nil => exact hfollow
  | cons name names ih =>
    rw [List.foldlM_cons, bind_eq_ok_iff] at hfollow ⊢
    obtain ⟨next, hstep, hrest⟩ := hfollow
    exact ⟨next, h.step hstep, ih next hrest⟩

theorem grows_put (hl : l ≠ []) (h : n = .directory ∨ m.isDirectoryAt l = false) :
    Grows m (m.put l n) := by
  refine ⟨rfl, fun k hk => ?_, fun k hk => ?_⟩
  · rw [isDirectoryAt_iff] at hk ⊢
    rw [get?_put hl]
    split
    · rename_i hkl
      rcases h with h | h
      · rw [h]
      · rw [← hkl, Bool.eq_false_iff, ne_eq, isDirectoryAt_iff] at h
        exact absurd hk h
    · exact hk
  · rw [get?_put hl]
    split
    · rfl
    · exact hk

theorem follow_append {names : List String} :
    m.follow path (names ++ [name]) = (m.follow path names >>= fun l => m.step l name) := by
  simp [follow, List.foldlM_append]

/-! ## Making files and directories -/

theorem locateName_eq_ok {last : Option String} (h : m.locateName path = .ok (l, last)) :
    refusal? path = none ∧ m.follow path (Path.names path).dropLast = .ok l ∧
      m.isDirectoryAt l = true ∧ last = (Path.names path).getLast? := by
  unfold locateName at h
  split at h
  · cases h
  · rename_i hrefusal
    rw [bind_eq_ok_iff] at h
    obtain ⟨l', hfollow, h⟩ := h
    split at h
    · cases h
    · rename_i hdir
      cases h
      exact ⟨hrefusal, hfollow, by simpa using hdir, rfl⟩

theorem locateName_eq_some (h : m.locateName path = .ok (d, some name)) :
    refusal? path = none ∧ ∃ above, Path.names path = above ++ [name] ∧
      m.follow path above = .ok d ∧ m.isDirectoryAt d = true := by
  obtain ⟨hrefusal, hfollow, hdir, hlast⟩ := locateName_eq_ok h
  obtain ⟨above, habove⟩ := List.getLast?_eq_some_iff.mp hlast.symm
  rw [habove, List.dropLast_concat] at hfollow
  exact ⟨hrefusal, above, habove, hfollow, hdir⟩

/-- All that making a file can do. -/
theorem create_eq_ok (h : m.create path = .ok (l, m₁)) :
    ∃ d name, m.locateName path = .ok (d, some name) ∧ isDots name = false ∧
      Path.endsInSlash path = false ∧ name.utf8ByteSize ≤ maxName ∧ m.isDirectoryAt l = false ∧
      l = d ++ [name] ∧ m₁ = m.put l (.file ByteArray.empty) := by
  unfold create at h
  rw [bind_eq_ok_iff] at h
  obtain ⟨⟨d, last⟩, hlocate, h⟩ := h
  cases last with
  | none => cases h
  | some name =>
    simp only [unless_eq_ok_iff, pure_eq_ok_iff, not_or, Nat.not_lt, Bool.not_eq_true] at h
    obtain ⟨⟨hdots, hslash⟩, hsize, hfile, h⟩ := h
    cases h
    exact ⟨d, name, hlocate, hdots, hslash, hsize, hfile, rfl, rfl⟩

theorem grows_create (h : m.create path = .ok (l, m₁)) (content : ByteArray) :
    Grows m (m₁.put l (.file content)) := by
  obtain ⟨d, name, -, -, -, -, hfile, rfl, rfl⟩ := create_eq_ok h
  rw [put_put]
  exact grows_put (by simp) (.inr hfile)

theorem locate_eq_ok_of_follow (hrefusal : refusal? path = none)
    (hslash : Path.endsInSlash path = false) (h : m.follow path (Path.names path) = .ok l) :
    m.locate path = .ok l := by
  unfold follow at h
  simp [locate, hrefusal, h, hslash, bind, Except.bind, pure, Except.pure]

/-- The path of a file that was made leads to it, whatever is written into it. -/
theorem locate_of_create (h : m.create path = .ok (l, m₁)) (content : ByteArray) :
    (m₁.put l (.file content)).locate path = .ok l := by
  have hgrows := grows_create h content
  obtain ⟨d, name, hlocate, hdots, hslash, hsize, -, rfl, rfl⟩ := create_eq_ok h
  obtain ⟨hrefusal, above, hnames, hfollow, hdir⟩ := locateName_eq_some hlocate
  refine locate_eq_ok_of_follow hrefusal hslash ?_
  rw [hnames, follow_append, hgrows.follow hfollow]
  refine step_eq_ok (hgrows.directories d hdir) hdots hsize ?_
  rw [get?_put (by simp), if_pos rfl, Option.isSome_some]

theorem createDir_eq_ok (h : m.createDir path = .ok m₁) :
    ∃ d name, m.locateName path = .ok (d, some name) ∧ isDots name = false ∧
      name.utf8ByteSize ≤ maxName ∧ m.get? (d ++ [name]) = none ∧
      m₁ = m.put (d ++ [name]) .directory := by
  unfold createDir at h
  rw [bind_eq_ok_iff] at h
  obtain ⟨⟨d, last⟩, hlocate, h⟩ := h
  cases last with
  | none => cases h
  | some name =>
    simp only [unless_eq_ok_iff, pure_eq_ok_iff, Nat.not_lt, Bool.not_eq_true,
      Option.isSome_eq_false_iff, Option.isNone_iff_eq_none] at h
    obtain ⟨hdots, hsize, hfree, rfl⟩ := h
    exact ⟨d, name, hlocate, hdots, hsize, hfree, rfl⟩

/-! ## Files in a directory -/

section
variable (hslash : '/' ∉ name.toList)
include hslash

theorem follow_join (names : List String) :
    m.follow (Path.join dir name) names = m.follow dir names := by
  rw [follow, follow, start, start, Path.isAbsolute_join hslash]

theorem refusal?_of_join (hdir : dir ≠ "") (h : refusal? (Path.join dir name) = none) :
    refusal? dir = none := by
  obtain ⟨rest, hjoin⟩ : ∃ rest, Path.join dir name = dir ++ rest := by
    rcases Path.join_cases hslash dir with ⟨hempty, -⟩ | ⟨-, -, hjoin⟩ | ⟨-, hjoin⟩
    · exact absurd hempty hdir
    · exact ⟨name, hjoin⟩
    · exact ⟨"/" ++ name, hjoin.trans String.append_assoc⟩
  have hlong (n : Nat) (h : n ≤ dir.utf8ByteSize) : n ≤ (dir ++ rest).utf8ByteSize := by
    rw [String.utf8ByteSize_append]
    omega
  rw [hjoin] at h
  unfold refusal? at h ⊢
  split at h
  · cases h
  · rename_i hnul
    split at h
    · cases h
    · split at h
      · cases h
      · rename_i hshort
        rw [if_neg, if_neg hdir, if_neg fun h => hshort (hlong _ h)]
        intro hmem
        apply hnul
        simp only [String.toList_append, List.contains_eq_mem, List.mem_append,
          decide_eq_true_eq] at hmem ⊢
        exact .inl hmem

/-- A path leads to a directory; the empty path leads to the working directory. -/
def LeadsTo (m : Memory) (path : String) (d : Location) : Prop :=
  m.isDirectoryAt d = true ∧ (path = "" ∧ d = m.home ∨ m.locate path = .ok d)

theorem leadsTo_of_join (hrefusal : refusal? (Path.join dir name) = none)
    (hfollow : m.follow dir (Path.names dir) = .ok d) (hdir : m.isDirectoryAt d = true) :
    m.LeadsTo dir d := by
  refine ⟨hdir, ?_⟩
  by_cases hempty : dir = ""
  · subst hempty
    exact .inl ⟨rfl, (Except.ok.inj hfollow).symm⟩
  · unfold follow at hfollow
    right
    simp [locate, refusal?_of_join hslash hempty hrefusal, hfollow, hdir, bind, Except.bind, pure,
      Except.pure]

variable (hne : name ≠ "")
include hne

theorem create_join_eq_ok (h : m.create (Path.join dir name) = .ok (l, m₁)) :
    ∃ d, refusal? (Path.join dir name) = none ∧ m.follow dir (Path.names dir) = .ok d ∧
      m.isDirectoryAt d = true ∧ isDots name = false ∧ name.utf8ByteSize ≤ maxName ∧
      l = d ++ [name] ∧ m.isDirectoryAt l = false ∧
      m₁ = m.put l (.file ByteArray.empty) := by
  obtain ⟨d, last, hlocate, hdots, -, hsize, hfile, rfl, rfl⟩ := create_eq_ok h
  obtain ⟨hrefusal, above, hnames, hfollow, hdir⟩ := locateName_eq_some hlocate
  rw [Path.names_join hslash hne] at hnames
  obtain ⟨rfl, hlast⟩ := List.append_inj' hnames rfl
  cases hlast
  rw [follow_join hslash] at hfollow
  exact ⟨d, hrefusal, hfollow, hdir, hdots, hsize, rfl, hfile, rfl⟩

theorem locate_join (hrefusal : refusal? (Path.join dir name) = none)
    (hfollow : m.follow dir (Path.names dir) = .ok d) (hdir : m.isDirectoryAt d = true)
    (hdots : isDots name = false) (hsize : name.utf8ByteSize ≤ maxName)
    (hthere : (m.get? (d ++ [name])).isSome = true) :
    m.locate (Path.join dir name) = .ok (d ++ [name]) := by
  refine locate_eq_ok_of_follow hrefusal (Path.endsInSlash_join hslash hne) ?_
  rw [Path.names_join hslash hne, follow_join hslash, follow_append, hfollow]
  exact step_eq_ok hdir hdots hsize hthere

end

/-! ## Directories on the way -/

/-- A path, going through its names, passes a location. -/
def Passes (m : Memory) (path : String) (l : Location) : Prop :=
  ∃ names, names <+: Path.names path ∧ m.follow path names = .ok l

/-- All that making directories for a path can change: free places that the path passes become
directories. -/
structure Made (path : String) (m m' : Memory) : Prop where
  home : m'.home = m.home
  nodes : ∀ l, m'.get? l = m.get? l ∨
    m.get? l = none ∧ m'.get? l = some .directory ∧ m'.Passes path l

theorem Made.refl (m : Memory) : Made path m m := ⟨rfl, fun _ => .inl rfl⟩

theorem Made.grows (h : Made path m m₁) : Grows m m₁ := by
  refine ⟨h.home, fun l hl => ?_, fun l hl => ?_⟩
  · rw [isDirectoryAt_iff] at hl ⊢
    rcases h.nodes l with hsame | ⟨-, hnew, -⟩
    · rw [hsame, hl]
    · exact hnew
  · rcases h.nodes l with hsame | ⟨-, hnew, -⟩
    · rw [hsame, hl]
    · rw [hnew, Option.isSome_some]

theorem Made.trans (h : Made path m m₁) (h' : Made path m₁ m₂) : Made path m m₂ := by
  refine ⟨h'.home.trans h.home, fun l => ?_⟩
  rcases h'.nodes l with hsame' | ⟨hfree', hnew', hpasses'⟩
  · rcases h.nodes l with hsame | ⟨hfree, hnew, names, hnames, hfollow⟩
    · exact .inl (hsame'.trans hsame)
    · exact .inr ⟨hfree, hsame'.trans hnew, names, hnames, h'.grows.follow hfollow⟩
  · rcases h.nodes l with hsame | ⟨-, hnew, -⟩
    · exact .inr ⟨hsame ▸ hfree', hnew', hpasses'⟩
    · rw [hfree'] at hnew
      cases hnew

theorem made_createDir {q : String} (hq : Path.Above q path) (h : m.createDir q = .ok m₁) :
    Made path m m₁ := by
  obtain ⟨d, name, hlocate, hdots, hsize, hfree, rfl⟩ := createDir_eq_ok h
  obtain ⟨-, above, hnames, hfollow, hdir⟩ := locateName_eq_some hlocate
  have hne : d ++ [name] ≠ [] := by simp
  refine ⟨rfl, fun l => ?_⟩
  rw [get?_put hne]
  split
  · rename_i hl
    subst hl
    refine .inr ⟨hfree, rfl, above ++ [name], hnames ▸ hq.2, ?_⟩
    have hgrows := grows_put (m := m) (n := .directory) hne (.inl rfl)
    have hstart : m.follow path above = .ok d := by
      rw [← hfollow, follow, follow, start, start, hq.1]
    rw [follow_append, hgrows.follow hstart]
    refine step_eq_ok (hgrows.directories d hdir) hdots hsize ?_
    rw [get?_put hne, if_pos rfl, Option.isSome_some]
  · exact .inl rfl

/-- Making directories changes nothing but free places on the way. -/
theorem made_createDirs (m : Memory) (path : String) : Made path m (m.createDirs path).2 :=
  makeDirs_rel Made.refl (fun _ _ _ => Made.trans) (fun _ _ _ => made_createDir) m

/-! ## Runs -/

/-- The text of the file that a path leads to. -/
def textAt (m : Memory) (path : String) : Except FileError String := do
  decodeText (← m.readAt (← m.locate path))

theorem run_readText (path : String) (m : Memory) :
    (Disk.readText path : StateM Memory _).run m = (m.textAt path, m) := by
  have hopen : (Disk.openFile path : StateM Memory _).run m = (m.locate path, m) := rfl
  rw [Disk.readText, Disk.run_andThen, hopen, textAt]
  cases m.locate path with
  | error e => rfl
  | ok l =>
    have hread : (Disk.read l : StateM Memory _).run m = (m.readAt l, m) := rfl
    dsimp only
    rw [Disk.run_andThen, hread]
    cases hbytes : m.readAt l with
    | error e => simp [bind, Except.bind, hbytes]
    | ok bytes =>
      simp only [bind, Except.bind, hbytes]
      rfl

end SchemaDocs.Memory
