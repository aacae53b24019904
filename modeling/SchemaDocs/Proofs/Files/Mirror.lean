import SchemaDocs.Proofs.Files.Volume

/-!
# File systems without links

A file system in memory is one that has no links and one name for each file. There paths lead to the
same places, and what makes files and directories ends alike and leaves the same behind. Main
statements: `Mirrors.create`, `Mirrors.createDirs`, `mirrors_ofMemory`.
-/

namespace SchemaDocs

namespace Memory

variable {m : Memory} {l : Location} {content : ByteArray}

/-- Each directory stands in one. -/
def Rooted (m : Memory) : Prop :=
  ∀ l, m.isDirectoryAt l = true → m.isDirectoryAt l.dropLast = true

private theorem Rooted.put_file (h : m.Rooted) (hl : l ≠ []) (hfile : m.isDirectoryAt l = false) :
    (m.put l (.file content)).Rooted := by
  intro k hk
  refine (grows_put hl (.inr hfile)).directories _ (h k ?_)
  rw [isDirectoryAt_iff, get?_put hl] at hk
  split at hk
  · cases hk
  · exact isDirectoryAt_iff.mpr hk

private theorem Rooted.put_directory (h : m.Rooted) (hl : l ≠ [])
    (habove : m.isDirectoryAt l.dropLast = true) : (m.put l .directory).Rooted := by
  intro k hk
  refine (grows_put hl (.inl rfl)).directories _ ?_
  rw [isDirectoryAt_iff, get?_put hl] at hk
  split at hk
  · rename_i hkl
    rw [hkl, habove]
  · exact h k (isDirectoryAt_iff.mpr hk)

end Memory

namespace Volume

open Memory (isDots maxName refusal?)

/-! ## Places -/

/-- What stands at a place in memory, and the entry that stands for it. -/
inductive Mirror (content : Nat → ByteArray) : Option Node → Option Entry → Prop
  | nothing : Mirror content none none
  | directory : Mirror content (some .directory) (some .directory)
  | file (n : Nat) : Mirror content (some (.file (content n))) (some (.file n))

/-- A file system without links, in which each file has one name and all stands as in memory. -/
structure Mirrors (m : Memory) (v : Volume) : Prop where
  home : v.home = m.home
  places : ∀ l, Mirror v.content (m.get? l) (v.get? l)
  single : ∀ l k n, v.get? l = some (.file n) → v.get? k = some (.file n) → l = k
  rooted : m.Rooted

variable {m : Memory} {v : Volume} {l d : Location} {path name : String} {above : List String}
  {n : Nat} {content : ByteArray} {o : Option Node} {e : Option Entry}

private theorem Mirror.directory_iff (h : Mirror v.content o e) :
    e = some .directory ↔ o = some .directory := by
  cases h with
  | nothing => simp
  | directory => simp
  | file n => simp

private theorem Mirror.isSome_eq (h : Mirror v.content o e) : e.isSome = o.isSome := by
  cases h with
  | nothing => rfl
  | directory => rfl
  | file n => rfl

theorem Mirror.ne_link (h : Mirror v.content o e) (target : String) :
    e ≠ some (.link target) := by
  cases h with
  | nothing => simp
  | directory => simp
  | file n => simp

private theorem Mirror.save (h : Mirror v.content o e) (hn : e ≠ some (.file n)) :
    Mirror (v.save n content).content o e := by
  cases h with
  | nothing => exact .nothing
  | directory => exact .directory
  | file k =>
    have hk : k ≠ n := fun hk => hn (by rw [hk])
    have hsame : v.content k = (v.save n content).content k := by simp [Volume.save, hk]
    rw [hsame]
    exact .file k

theorem Mirrors.isDirectoryAt (h : Mirrors m v) (l : Location) :
    v.isDirectoryAt l = m.isDirectoryAt l := by
  rw [Bool.eq_iff_iff, isDirectoryAt_iff, Memory.isDirectoryAt_iff]
  exact (h.places l).directory_iff

theorem Mirrors.save_file (h : Mirrors m v) (hl : v.get? l = some (.file n))
    (content : ByteArray) : Mirrors (m.put l (.file content)) (v.save n content) := by
  have hne : l ≠ [] := by
    rintro rfl
    simp [get?] at hl
  have hfile : m.isDirectoryAt l = false := by
    rw [← h.isDirectoryAt, Bool.eq_false_iff, ne_eq, isDirectoryAt_iff, hl]
    simp
  constructor
  case home => exact h.home
  case places =>
    intro k
    rw [Memory.get?_put hne, get?_save]
    split
    · rename_i hk
      have hsaved : (v.save n content).content n = content := by simp [Volume.save]
      have hmirror := @Mirror.file (v.save n content).content n
      rwa [hsaved, ← hl, ← hk] at hmirror
    · rename_i hk
      exact (h.places k).save fun hk' => hk (h.single k l n hk' hl)
  case single => exact h.single
  case rooted => exact h.rooted.put_file hne hfile

private theorem Mirrors.put_directory (h : Mirrors m v) (hfree : v.get? l = none)
    (habove : m.isDirectoryAt l.dropLast = true) :
    Mirrors (m.put l .directory) (v.put l .directory) := by
  have hne := ne_nil_of_get? hfree
  constructor
  case home => exact h.home
  case places =>
    intro k
    rw [Memory.get?_put hne, get?_put hne]
    split
    · exact .directory
    · exact h.places k
  case single =>
    intro k k' n hk hk'
    rw [get?_put hne] at hk hk'
    split at hk
    · cases hk
    · split at hk'
      · cases hk'
      · exact h.single k k' n hk hk'
  case rooted => exact h.rooted.put_directory hne habove

/-- A file that is made has a number of its own. -/
private theorem Mirrors.put_file (h : Mirrors m v) (hfree : v.get? l = none)
    (content : ByteArray) :
    Mirrors (m.put l (.file content)) ((v.put l (.file v.fresh)).save v.fresh content) := by
  have hne := ne_nil_of_get? hfree
  have hnew (k : Location) : v.get? k ≠ some (.file v.fresh) := fun hk =>
    Nat.lt_irrefl _ (number_lt_fresh hk)
  have hfile : m.isDirectoryAt l = false := by
    rw [← h.isDirectoryAt, Bool.eq_false_iff, ne_eq, isDirectoryAt_iff, hfree]
    simp
  constructor
  case home => exact h.home
  case places =>
    intro k
    rw [Memory.get?_put hne, get?_save, get?_put hne]
    split
    · have hsaved : (v.save v.fresh content).content v.fresh = content := by simp [Volume.save]
      have hmirror := @Mirror.file (v.save v.fresh content).content v.fresh
      rwa [hsaved] at hmirror
    · exact (h.places k).save (hnew k)
  case single =>
    intro k k' n hk hk'
    rw [get?_save, get?_put hne] at hk hk'
    split at hk
    · rename_i hkl
      cases hk
      split at hk'
      · rename_i hkl'
        rw [hkl, hkl']
      · exact absurd hk' (hnew k')
    · split at hk'
      · cases hk'
        exact absurd hk (hnew k)
      · exact h.single k k' n hk hk'
  case rooted => exact h.rooted.put_file hne hfile

/-! ## Paths -/

/-- A name that leads on in memory, or to nothing, or fails. -/
inductive Turned : Except FileError Location → Except FileError Turn → Prop
  | place (l : Location) : Turned (.ok l) (.ok (.place l))
  | nothing : Turned (.error .notFound) (.ok .nothing)
  | error (e : FileError) : Turned (.error e) (.error e)

private theorem Mirrors.turned (h : Mirrors m v) (l : Location) (name : String) :
    Turned (m.step l name) (v.turn l name) := by
  rw [Memory.step, turn, h.isDirectoryAt]
  by_cases hdir : (!m.isDirectoryAt l) = true
  · rw [if_pos hdir, if_pos hdir]
    exact .error _
  rw [if_neg hdir, if_neg hdir]
  by_cases hdot : name = "."
  · rw [if_pos hdot, if_pos hdot]
    exact .place _
  rw [if_neg hdot, if_neg hdot]
  by_cases hdots : name = ".."
  · rw [if_pos hdots, if_pos hdots]
    exact .place _
  rw [if_neg hdots, if_neg hdots]
  by_cases hsize : maxName < name.utf8ByteSize
  · rw [if_pos hsize, if_pos hsize]
    exact .error _
  rw [if_neg hsize, if_neg hsize]
  have hplace := h.places (l ++ [name])
  generalize m.get? (l ++ [name]) = o, v.get? (l ++ [name]) = e at hplace
  cases hplace with
  | nothing => exact .nothing
  | directory => exact .place _
  | file n => exact .place _

variable {jump : Location → List String → Except FileError Location}

private theorem Mirrors.walkWith (h : Mirrors m v) (names : List String) (l : Location) :
    v.walkWith false jump l names = names.foldlM m.step l := by
  induction names generalizing l with
  | nil => rfl
  | cons name names ih =>
    rw [Volume.walkWith, List.foldlM_cons]
    have hturned := h.turned l name
    generalize m.step l name = next, v.turn l name = t at hturned
    cases hturned with
    | place l' => exact ih l'
    | nothing => rw [if_neg (by simp)]; rfl
    | error e => rfl

private theorem Mirrors.walkWith_concat (h : Mirrors m v) (l : Location) :
    v.walkWith true jump l (above ++ [name]) =
      above.foldlM m.step l >>= fun d => v.walkWith true jump d [name] := by
  induction above generalizing l with
  | nil => rfl
  | cons first above ih =>
    rw [List.cons_append, Volume.walkWith, List.foldlM_cons, bind_assoc]
    have hturned := h.turned l first
    generalize m.step l first = next, v.turn l first = t at hturned
    cases hturned with
    | place l' => exact ih l'
    | nothing => rw [if_neg (by simp)]; rfl
    | error e => rfl

theorem Mirrors.follow (h : Mirrors m v) (names : List String) :
    v.follow false path names = m.follow path names := by
  rw [Volume.follow, Memory.follow, Memory.start, start, h.home, maxLinks, walk]
  exact h.walkWith names _

theorem Mirrors.locate (h : Mirrors m v) (path : String) : v.locate path = m.locate path := by
  rw [Volume.locate, Memory.locate]
  cases refusal? path with
  | some e => rfl
  | none =>
    dsimp only
    rw [h.follow, Memory.follow, steps, List.foldlM_append]
    cases (Path.names path).foldlM m.step (m.start path) with
    | error e => rfl
    | ok l =>
      cases Path.endsInSlash path with
      | false => rfl
      | true =>
        cases hdir : m.isDirectoryAt l with
        | false =>
          simp [Memory.step, hdir, bind, Except.bind, throw, throwThe, MonadExceptOf.throw]
        | true => simp [Memory.step, hdir, bind, Except.bind, pure, Except.pure]

theorem Mirrors.locateName (h : Mirrors m v) (path : String) :
    v.locateName path = m.locateName path := by
  rw [Volume.locateName, Memory.locateName]
  cases refusal? path with
  | some e => rfl
  | none => simp only [h.follow, Memory.follow, h.isDirectoryAt]

/-! ## Making files -/

private theorem Mirrors.follow_last (h : Mirrors m v) (hnames : Path.names path = above ++ [name])
    (hfollow : m.follow path above = .ok d) :
    v.follow true path (Path.names path) = v.walk true maxLinks d [name] := by
  rw [Memory.follow, Memory.start] at hfollow
  rw [Volume.follow, start, h.home, hnames, maxLinks, walk, h.walkWith_concat, hfollow]
  rfl

private theorem Mirrors.walk_dots (h : Mirrors m v) (hdir : m.isDirectoryAt d = true)
    (hdots : isDots name = true) :
    ∃ l, v.walk true maxLinks d [name] = .ok l ∧ v.get? l = some .directory := by
  have hdir' : v.isDirectoryAt d = true := by rw [h.isDirectoryAt, hdir]
  have habove : v.isDirectoryAt d.dropLast = true := by
    rw [h.isDirectoryAt, h.rooted d hdir]
  rw [isDots, Bool.or_eq_true, decide_eq_true_eq, decide_eq_true_eq] at hdots
  rcases hdots with rfl | rfl
  · exact ⟨d, by simp [maxLinks, walk, Volume.walkWith, turn, hdir'], isDirectoryAt_iff.mp hdir'⟩
  · exact ⟨d.dropLast, by simp [maxLinks, walk, Volume.walkWith, turn, hdir'],
      isDirectoryAt_iff.mp habove⟩

private theorem Mirrors.walk_long (h : Mirrors m v) (hdir : m.isDirectoryAt d = true)
    (hdots : isDots name = false) (hsize : maxName < name.utf8ByteSize) :
    v.walk true maxLinks d [name] = .error .nameTooLong := by
  obtain ⟨hdot, hdots⟩ := Memory.isDots_eq_false_iff.mp hdots
  rw [maxLinks, walk, Volume.walkWith, turn, h.isDirectoryAt, hdir, if_neg (by decide), if_neg hdot,
    if_neg hdots, if_pos hsize]

private theorem Mirrors.walk_plain (h : Mirrors m v) (hdir : m.isDirectoryAt d = true)
    (hdots : isDots name = false) (hsize : name.utf8ByteSize ≤ maxName) :
    v.walk true maxLinks d [name] = .ok (d ++ [name]) := by
  rw [maxLinks, walk, Volume.walkWith, turn_of_plain (by rw [h.isDirectoryAt, hdir]) hdots hsize]
  have hplace := h.places (d ++ [name])
  generalize m.get? (d ++ [name]) = o, v.get? (d ++ [name]) = e at hplace
  cases hplace with
  | nothing => exact if_pos ⟨rfl, rfl⟩
  | directory => rfl
  | file n => rfl

/-- Making a file leads to the same place, and fails for the same reason. -/
theorem Mirrors.create (h : Mirrors m v) (path : String) :
    EndAlike (fun made made' => made'.2.get? made.1 = some (.file made'.1) ∧
      Mirrors made.2 made'.2) (m.create path) (v.create path) := by
  rw [Memory.create, Volume.create, h.locateName]
  cases hfound : m.locateName path with
  | error e => exact .error e
  | ok found =>
    obtain ⟨d, last⟩ := found
    obtain ⟨-, hfollow, hdir, hlast⟩ := Memory.locateName_eq_ok hfound
    cases last with
    | none =>
      have hnames := List.getLast?_eq_none_iff.mp hlast.symm
      cases Path.endsInSlash path with
      | true => exact .error _
      | false =>
        have hplace : v.follow true path (Path.names path) = .ok d := by
          rw [hnames] at hfollow ⊢
          rw [← hfollow, Volume.follow, start, h.home]
          rfl
        have hdir' := isDirectoryAt_iff.mp ((h.isDirectoryAt d).trans hdir)
        simp only [hplace, hdir', bind, Except.bind]
        exact .error _
    | some name =>
      obtain ⟨above, hnames⟩ := List.getLast?_eq_some_iff.mp hlast.symm
      rw [hnames, List.dropLast_concat] at hfollow
      cases Path.endsInSlash path with
      | true =>
        simp only [or_true, if_true]
        exact .error _
      | false =>
        rw [h.follow_last hnames hfollow]
        cases hdots : isDots name with
        | true =>
          obtain ⟨l, hwalk, hl⟩ := h.walk_dots hdir hdots
          simp only [hdots, hwalk, hl, bind, Except.bind, true_or, if_true]
          exact .error _
        | false =>
          by_cases hsize : maxName < name.utf8ByteSize
          · rw [h.walk_long hdir hdots hsize]
            simp only [hdots, hsize, bind, Except.bind, Bool.false_eq_true, or_false, if_true,
              if_false]
            exact .error _
          · rw [h.walk_plain hdir hdots (Nat.not_lt.mp hsize)]
            simp only [hdots, hsize, bind, Except.bind, Bool.false_eq_true, or_false, if_false,
              ← h.isDirectoryAt, isDirectoryAt_iff]
            cases hget : v.get? (d ++ [name]) with
            | none =>
              refine .ok ⟨?_, h.put_file hget _⟩
              rw [get?_save, get?_put (by simp), if_pos rfl]
            | some e =>
              cases e with
              | directory => exact .error _
              | file n => exact .ok ⟨hget, h.save_file hget _⟩
              | link target => exact absurd hget ((h.places _).ne_link target)

/-! ## Making directories -/

private theorem Mirrors.createDir (h : Mirrors m v) (path : String) :
    EndAlike Mirrors (m.createDir path) (v.createDir path) := by
  rw [Memory.createDir, Volume.createDir, h.locateName]
  cases hfound : m.locateName path with
  | error e => exact .error e
  | ok found =>
    obtain ⟨d, last⟩ := found
    obtain ⟨-, -, hdir, -⟩ := Memory.locateName_eq_ok hfound
    cases last with
    | none => exact .error _
    | some name =>
      simp only [bind, Except.bind, (h.places (d ++ [name])).isSome_eq]
      cases hdots : isDots name with
      | true =>
        exact .error _
      | false =>
        by_cases hsize : maxName < name.utf8ByteSize
        · simp only [hsize]
          exact .error _
        · simp only [hsize]
          cases hsome : (m.get? (d ++ [name])).isSome with
          | true =>
            exact .error _
          | false =>
            rw [← (h.places (d ++ [name])).isSome_eq] at hsome
            refine .ok (h.put_directory (by simpa using hsome) ?_)
            rwa [List.dropLast_concat]

private theorem Mirrors.isDirectory (h : Mirrors m v) (path : String) :
    m.isDirectory path = v.isDirectory path := by
  rw [Memory.isDirectory, Volume.isDirectory, h.locate]
  cases m.locate path with
  | error e => rfl
  | ok l => exact (h.isDirectoryAt l).symm

/-- Making directories ends alike. -/
theorem Mirrors.createDirs (h : Mirrors m v) (path : String) :
    RunAlike Mirrors (m.createDirs path) (v.createDirs path) :=
  makeDirs_alike (fun path h => h.createDir path) (fun path h => h.isDirectory path) h path

/-! ## Memory as a file system without links -/

private theorem lookup_zipIdx (nodes : List (Location × Node)) (i : Nat) (l : Location) :
    nodes.lookup l = none ∧
        ((nodes.zipIdx i).map fun x => (x.1.1, Entry.ofNode x.2 x.1.2)).lookup l = none ∨
      ∃ k node, nodes[k]? = some (l, node) ∧ nodes.lookup l = some node ∧
        ((nodes.zipIdx i).map fun x => (x.1.1, Entry.ofNode x.2 x.1.2)).lookup l =
          some (.ofNode (i + k) node) := by
  induction nodes generalizing i with
  | nil => exact .inl ⟨rfl, rfl⟩
  | cons first nodes ih =>
    obtain ⟨place, node⟩ := first
    simp only [List.zipIdx_cons, List.map_cons, List.lookup_cons]
    by_cases hplace : l = place
    · subst hplace
      exact .inr ⟨0, node, rfl, by simp, by simp⟩
    · simp only [beq_false_of_ne hplace]
      rcases ih (i + 1) with hnone | ⟨k, node', hk, hlookup, hentry⟩
      · exact .inl hnone
      · refine .inr ⟨k + 1, node', hk, hlookup, ?_⟩
        rw [hentry, Nat.add_assoc, Nat.add_comm 1 k]

private theorem get?_ofMemory (m : Memory) (l : Location) :
    m.get? l = none ∧ (ofMemory m).get? l = none ∨
      m.get? l = some .directory ∧ (ofMemory m).get? l = some .directory ∨
        ∃ n content, m.nodes[n]? = some (l, .file content) ∧ m.get? l = some (.file content) ∧
          (ofMemory m).get? l = some (.file n) := by
  rw [Memory.get?, get?]
  by_cases hl : l = []
  · exact .inr (.inl ⟨if_pos hl, if_pos hl⟩)
  · rw [if_neg hl, if_neg hl]
    rcases lookup_zipIdx m.nodes 0 l with hnone | ⟨n, node, hn, hlookup, hentry⟩
    · exact .inl hnone
    · rw [Nat.zero_add] at hentry
      cases node with
      | directory => exact .inr (.inl ⟨hlookup, hentry⟩)
      | file content => exact .inr (.inr ⟨n, content, hn, hlookup, hentry⟩)

/-- What is in memory stands alike in a file system without links. -/
theorem mirrors_ofMemory (hrooted : m.Rooted) : Mirrors m (ofMemory m) := by
  constructor
  case home => rfl
  case places =>
    intro l
    rcases get?_ofMemory m l with ⟨hm, hv⟩ | ⟨hm, hv⟩ | ⟨n, content, hn, hm, hv⟩
    · rw [hm, hv]
      exact .nothing
    · rw [hm, hv]
      exact .directory
    · have hcontent : (ofMemory m).content n = content := by simp [ofMemory, hn]
      rw [hm, hv, ← hcontent]
      exact .file n
  case single =>
    have hplace {l : Location} {n : Nat} (hl : (ofMemory m).get? l = some (.file n)) :
        ∃ content, m.nodes[n]? = some (l, .file content) := by
      rcases get?_ofMemory m l with ⟨-, hv⟩ | ⟨-, hv⟩ | ⟨n', content, hn, -, hv⟩
      · rw [hl] at hv
        cases hv
      · rw [hl] at hv
        cases hv
      · rw [hl] at hv
        cases hv
        exact ⟨content, hn⟩
    intro l k n hl hk
    obtain ⟨content, hn⟩ := hplace hl
    obtain ⟨content', hn'⟩ := hplace hk
    rw [hn] at hn'
    cases hn'
    rfl
  case rooted => exact hrooted

end Volume
end SchemaDocs
