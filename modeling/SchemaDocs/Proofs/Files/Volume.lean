import SchemaDocs.Files.Volume
import SchemaDocs.Proofs.Files.Memory

/-!
# What changes in a file system with links

Saving a file changes the content of the one file to which the path leads, which is made first if
there is none; making directories takes free places on the way of the path. What is followed before
is followed after. Main statements: `saves_of_create`, `made_createDirs`.
-/

namespace SchemaDocs.Volume

open Memory (isDots maxName refusal?)

variable {v v₁ v₂ v' : Volume} {l l' d k : Location} {free : Bool} {links n : Nat} {e : Entry}
  {path dir name : String} {names : List String} {content : ByteArray}
  {jump jump' : Location → List String → Except FileError Location}

/-! ## What stands where -/

theorem isDirectoryAt_iff : v.isDirectoryAt l = true ↔ v.get? l = some .directory := by
  simp [isDirectoryAt]

theorem get?_put (hl : l ≠ []) (k : Location) :
    (v.put l e).get? k = if k = l then some e else v.get? k := by
  unfold get? put
  by_cases hk : k = []
  · rw [if_pos hk, if_pos hk, if_neg (hk ▸ Ne.symm hl)]
  · rw [if_neg hk, if_neg hk, List.lookup_cons]
    by_cases hkl : k = l
    · simp [hkl]
    · rw [beq_false_of_ne hkl, if_neg hkl]

@[simp] theorem get?_save (k : Location) : (v.save n content).get? k = v.get? k := rfl

theorem ne_nil_of_get? (h : v.get? l = none) : l ≠ [] := by
  rintro rfl
  simp [get?] at h

theorem number_lt_fresh (h : v.get? l = some e) : e.number < v.fresh := by
  have hbound (ns : List Nat) (i : Nat) (hi : i ∈ ns) : i ≤ ns.foldr max 0 := by
    induction ns with
    | nil => simp at hi
    | cons a ns ih =>
      rw [List.foldr_cons]
      rcases List.mem_cons.mp hi with rfl | hi
      · exact Nat.le_max_left _ _
      · exact Nat.le_trans (ih hi) (Nat.le_max_right _ _)
  unfold get? at h
  split at h
  · cases h
    exact Nat.succ_pos _
  · obtain ⟨before, after, hentries, -⟩ := List.lookup_eq_some_iff.mp h
    have hmem : (l, e) ∈ v.entries := hentries ▸ List.mem_append_right _ List.mem_cons_self
    have hnumber := List.mem_map_of_mem (f := fun entry => entry.2.number) hmem
    exact Nat.lt_succ_of_le (hbound _ _ hnumber)

/-- A file system in which all that stood in another one stands as it did. -/
structure Extends (v v' : Volume) : Prop where
  home : v'.home = v.home
  entries : ∀ l e, v.get? l = some e → v'.get? l = some e

theorem Extends.refl (v : Volume) : Extends v v := ⟨rfl, fun _ _ h => h⟩

theorem Extends.trans (h : Extends v v₁) (h' : Extends v₁ v₂) : Extends v v₂ :=
  ⟨h'.home.trans h.home, fun l e hl => h'.entries l e (h.entries l e hl)⟩

theorem Extends.directory (h : Extends v v') (hl : v.isDirectoryAt l = true) :
    v'.isDirectoryAt l = true :=
  isDirectoryAt_iff.mpr (h.entries l _ (isDirectoryAt_iff.mp hl))

theorem Extends.eq_none (h : Extends v v') (hfree : v'.get? l = none) : v.get? l = none := by
  cases hget : v.get? l with
  | none => rfl
  | some entry =>
    rw [h.entries l entry hget] at hfree
    cases hfree

theorem extends_put (hfree : v.get? l = none) : Extends v (v.put l e) := by
  refine ⟨rfl, fun k e' hk => ?_⟩
  rw [get?_put (ne_nil_of_get? hfree), if_neg, hk]
  rintro rfl
  rw [hfree] at hk
  cases hk

theorem turn_of_plain (hdir : v.isDirectoryAt l = true) (hdots : isDots name = false)
    (hsize : name.utf8ByteSize ≤ maxName) :
    v.turn l name = .ok (.of (l ++ [name]) (v.get? (l ++ [name]))) := by
  obtain ⟨hdot, hdots⟩ := Memory.isDots_eq_false_iff.mp hdots
  rw [turn, hdir, if_neg (by decide), if_neg hdot, if_neg hdots, if_neg (Nat.not_lt.mpr hsize)]

theorem isDirectoryAt_of_turn {t : Turn} (h : v.turn l name = .ok t) :
    v.isDirectoryAt l = true := by
  rw [turn] at h
  split at h
  · cases h
  · rename_i hdir
    simpa using hdir

theorem turn_eq_ok {t : Turn} (hdots : isDots name = false) (h : v.turn l name = .ok t) :
    name.utf8ByteSize ≤ maxName ∧ t = .of (l ++ [name]) (v.get? (l ++ [name])) := by
  have hdir := isDirectoryAt_of_turn h
  have hsize : name.utf8ByteSize ≤ maxName := by
    obtain ⟨hdot, hdots⟩ := Memory.isDots_eq_false_iff.mp hdots
    rw [turn, hdir, if_neg (by decide), if_neg hdot, if_neg hdots] at h
    split at h
    · cases h
    · rename_i hsize
      exact Nat.not_lt.mp hsize
  rw [turn_of_plain hdir hdots hsize] at h
  cases h
  exact ⟨hsize, rfl⟩

theorem Turn.of_of_extends (h : Extends v v') (hthere : Turn.of l (v.get? k) ≠ .nothing) :
    Turn.of l (v'.get? k) = Turn.of l (v.get? k) := by
  cases hk : v.get? k with
  | none => exact absurd (by rw [hk]; rfl) hthere
  | some e => rw [h.entries k e hk]

theorem isDots_eq_false_of_turn (h : v.turn l name = .ok .nothing) : isDots name = false := by
  rw [Memory.isDots_eq_false_iff]
  have hdir := isDirectoryAt_of_turn h
  constructor
  · rintro rfl
    simp [turn, hdir] at h
  · rintro rfl
    simp [turn, hdir] at h

theorem Turn.of_eq_place (hlink : ∀ target, e ≠ .link target) : Turn.of l (some e) = .place l := by
  cases e with
  | directory => rfl
  | file n => rfl
  | link target => exact absurd rfl (hlink target)

theorem Turn.eq_of_of_eq_place {o : Option Entry} (h : Turn.of l o = .place l') : l' = l := by
  unfold Turn.of at h
  split at h
  · cases h
  · cases h
  · cases h
    rfl

theorem Turn.eq_of_of_eq_link {o : Option Entry} {target : String}
    (h : Turn.of l o = .link target) : o = some (.link target) := by
  unfold Turn.of at h
  split at h
  · cases h
  · cases h
    rfl
  · cases h

theorem Extends.turn {t : Turn} (h : Extends v v') (ht : v.turn l name = .ok t)
    (hthere : t ≠ .nothing) : v'.turn l name = .ok t := by
  have hdir := isDirectoryAt_of_turn ht
  have hdir' := h.directory hdir
  cases hdots : isDots name with
  | true =>
    rw [isDots, Bool.or_eq_true, decide_eq_true_eq, decide_eq_true_eq] at hdots
    rw [← ht]
    rcases hdots with rfl | rfl
    · simp [Volume.turn, hdir, hdir']
    · simp [Volume.turn, hdir, hdir']
  | false =>
    obtain ⟨hsize, rfl⟩ := turn_eq_ok hdots ht
    rw [turn_of_plain hdir' hdots hsize, Turn.of_of_extends h hthere]

/-- What is followed in one file system leads to the same place in every one that extends it, if
something stands there that is no link. -/
theorem walkWith_of_extends (h : Extends v v')
    (hjump : ∀ l names, jump l names = .ok l' → jump' l names = .ok l')
    (hthere : v'.get? l' = some e) (hlink : ∀ target, e ≠ .link target)
    (hwalk : v.walkWith free jump l names = .ok l') :
    v'.walkWith false jump' l names = .ok l' := by
  induction names generalizing l with
  | nil => exact hwalk
  | cons name names ih =>
    rw [walkWith] at hwalk ⊢
    split at hwalk
    · cases hwalk
    · rename_i k hturn
      rw [h.turn hturn (by simp)]
      exact ih hwalk
    · rename_i target hturn
      rw [h.turn hturn (by simp)]
      exact hjump _ _ hwalk
    · rename_i hturn
      split at hwalk
      · rename_i hlast
        cases hwalk
        have hdots := isDots_eq_false_of_turn hturn
        rw [turn_of_plain (h.directory (isDirectoryAt_of_turn hturn)) hdots
          (turn_eq_ok hdots hturn).1, hthere, Turn.of_eq_place hlink, hlast.2]
        rfl
      · cases hwalk

theorem walk_of_extends (h : Extends v v') (hthere : v'.get? l' = some e)
    (hlink : ∀ target, e ≠ .link target) (hwalk : v.walk free links l names = .ok l') :
    v'.walk false links l names = .ok l' := by
  induction links generalizing l names with
  | zero =>
    rw [walk] at hwalk ⊢
    exact walkWith_of_extends h (fun _ _ hjump => by cases hjump) hthere hlink hwalk
  | succ links ih =>
    rw [walk] at hwalk ⊢
    exact walkWith_of_extends h (fun _ _ hjump => ih hjump) hthere hlink hwalk

theorem walkWith_concat (hjump : ∀ k names, jump k (names ++ [name]) = .ok l' →
      ∃ d links, jump' k names = .ok d ∧ v.walk free links d [name] = .ok l')
    (hlast : ∀ d, v.walkWith free jump d [name] = .ok l' →
      ∃ links, v.walk free links d [name] = .ok l')
    (hwalk : v.walkWith free jump l (names ++ [name]) = .ok l') :
    ∃ d links, v.walkWith false jump' l names = .ok d ∧ v.walk free links d [name] = .ok l' := by
  induction names generalizing l with
  | nil =>
    obtain ⟨links, hlast⟩ := hlast l hwalk
    exact ⟨l, links, rfl, hlast⟩
  | cons first names ih =>
    rw [List.cons_append, walkWith] at hwalk
    rw [walkWith]
    split at hwalk
    · cases hwalk
    · exact ih hwalk
    · rw [← List.append_assoc] at hwalk
      exact hjump _ _ hwalk
    · rw [if_neg (by simp)] at hwalk
      cases hwalk

theorem walk_concat (hwalk : v.walk free links l (names ++ [name]) = .ok l') :
    ∃ d links', v.walk false links l names = .ok d ∧ v.walk free links' d [name] = .ok l' := by
  induction links generalizing l names with
  | zero =>
    rw [walk] at hwalk
    exact walkWith_concat (fun _ _ hjump => by cases hjump) (fun d h => ⟨0, h⟩) hwalk
  | succ links ih =>
    rw [walk] at hwalk
    exact walkWith_concat (fun _ _ hjump => ih hjump) (fun d h => ⟨links + 1, h⟩) hwalk

theorem walkWith_append
    (hjump : ∀ k names, jump k names = .ok d → jump k (names ++ [name]) = .ok l')
    (hlast : v.turn d name = .ok (.place l')) (hwalk : v.walkWith false jump l names = .ok d) :
    v.walkWith false jump l (names ++ [name]) = .ok l' := by
  induction names generalizing l with
  | nil =>
    cases hwalk
    rw [List.nil_append, walkWith, hlast]
    rfl
  | cons first names ih =>
    rw [walkWith] at hwalk
    rw [List.cons_append, walkWith]
    split at hwalk
    · cases hwalk
    · exact ih hwalk
    · have hrest := hjump _ _ hwalk
      rwa [List.append_assoc] at hrest
    · cases hwalk

theorem walk_append (hlast : v.turn d name = .ok (.place l'))
    (hwalk : v.walk false links l names = .ok d) :
    v.walk false links l (names ++ [name]) = .ok l' := by
  induction links generalizing l names with
  | zero =>
    rw [walk] at hwalk ⊢
    exact walkWith_append (fun _ _ hjump => by cases hjump) hlast hwalk
  | succ links ih =>
    rw [walk] at hwalk ⊢
    exact walkWith_append (fun _ _ hjump => ih hjump) hlast hwalk

theorem walk_singleton (hdots : isDots name = false)
    (hwalk : v.walk free links d [name] = .ok l') :
    v.isDirectoryAt d = true ∧ name.utf8ByteSize ≤ maxName ∧
      ((∃ target, v.get? (d ++ [name]) = some (.link target)) ∨ l' = d ++ [name]) := by
  obtain ⟨jump, hjump⟩ : ∃ jump, v.walkWith free jump d [name] = .ok l' := by
    cases links with
    | zero => exact ⟨_, hwalk⟩
    | succ links => exact ⟨_, hwalk⟩
  rw [walkWith] at hjump
  split at hjump
  · cases hjump
  · rename_i k hturn
    obtain ⟨hsize, hk⟩ := turn_eq_ok hdots hturn
    refine ⟨isDirectoryAt_of_turn hturn, hsize, .inr ?_⟩
    cases hjump
    exact Turn.eq_of_of_eq_place hk.symm
  · rename_i target hturn
    obtain ⟨hsize, hk⟩ := turn_eq_ok hdots hturn
    exact ⟨isDirectoryAt_of_turn hturn, hsize, .inl ⟨target, Turn.eq_of_of_eq_link hk.symm⟩⟩
  · rename_i hturn
    obtain ⟨hsize, hk⟩ := turn_eq_ok hdots hturn
    refine ⟨isDirectoryAt_of_turn hturn, hsize, .inr ?_⟩
    split at hjump
    · cases hjump
      rfl
    · cases hjump

/-! ## Files of paths -/

theorem locate_eq_ok (h : v.locate path = .ok l) :
    refusal? path = none ∧ v.follow false path (steps path) = .ok l := by
  unfold locate at h
  split at h
  · cases h
  · rename_i hrefusal
    exact ⟨hrefusal, h⟩

theorem Extends.locate (h : Extends v v') (hthere : v'.get? l = some e)
    (hlink : ∀ target, e ≠ .link target) (hlocate : v.locate path = .ok l) :
    v'.locate path = .ok l := by
  obtain ⟨hrefusal, hfollow⟩ := locate_eq_ok hlocate
  rw [Volume.locate, hrefusal, Volume.follow, h.home]
  exact walk_of_extends h hthere hlink hfollow

theorem fileAt?_eq_some_iff :
    v.fileAt? path = some n ↔ ∃ l, v.locate path = .ok l ∧ v.get? l = some (.file n) := by
  unfold fileAt?
  cases v.locate path with
  | error e => simp
  | ok l =>
    cases hget : v.get? l with
    | none => simp [hget]
    | some e => cases e <;> simp [hget]

theorem Extends.fileAt? (h : Extends v v') (hfile : v.fileAt? path = some n) :
    v'.fileAt? path = some n := by
  obtain ⟨l, hlocate, hget⟩ := fileAt?_eq_some_iff.mp hfile
  have hget' := h.entries l _ hget
  exact fileAt?_eq_some_iff.mpr ⟨l, h.locate hget' (by simp) hlocate, hget'⟩

theorem readAt_congr (hsame : v'.get? l = v.get? l)
    (hcontent : ∀ n, v.get? l = some (.file n) → v'.content n = v.content n) :
    v'.readAt l = v.readAt l := by
  rw [readAt, readAt, hsame]
  cases hget : v.get? l with
  | none => rfl
  | some entry =>
    cases entry with
    | directory => rfl
    | link target => rfl
    | file n => exact congrArg Except.ok (hcontent n hget)

/-! ## Making files -/

theorem locateName_eq_some (h : v.locateName path = .ok (d, some name)) :
    refusal? path = none ∧ ∃ above, Path.names path = above ++ [name] ∧
      v.follow false path above = .ok d ∧ v.isDirectoryAt d = true := by
  unfold locateName at h
  split at h
  · cases h
  · rename_i hrefusal
    rw [bind_eq_ok_iff] at h
    obtain ⟨l, hfollow, h⟩ := h
    split at h
    · cases h
    · rename_i hdir
      cases hlast : (Path.names path).getLast? with
      | none =>
        rw [hlast] at h
        cases h
      | some last =>
        rw [hlast] at h
        cases h
        obtain ⟨above, habove⟩ := List.getLast?_eq_some_iff.mp hlast
        rw [habove, List.dropLast_concat] at hfollow
        exact ⟨hrefusal, above, habove, hfollow, by simpa using hdir⟩

/-- All that making a file can do. -/
theorem create_eq_ok (h : v.create path = .ok (n, v₁)) :
    refusal? path = none ∧ Path.endsInSlash path = false ∧
      ∃ l, v.follow true path (Path.names path) = .ok l ∧
        (v.get? l = none ∧ n = v.fresh ∧ v₁ = (v.put l (.file n)).save n ByteArray.empty ∨
          v.get? l = some (.file n) ∧ v₁ = v.save n ByteArray.empty) := by
  unfold create at h
  simp only [bind_eq_ok_iff, unless_eq_ok_iff, Bool.not_eq_true] at h
  obtain ⟨last, hlast, hslash, l, hfollow, h⟩ := h
  have hrefusal : refusal? path = none := by
    unfold locateName at hlast
    split at hlast
    · cases hlast
    · assumption
  refine ⟨hrefusal, hslash, l, hfollow, ?_⟩
  split at h
  · rename_i hfree
    cases h
    exact .inl ⟨hfree, rfl, rfl⟩
  · rename_i hfile
    cases h
    exact .inr ⟨hfile, rfl⟩
  · cases h

theorem run_create_of_ok (h : v.create path = .ok (n, v₁)) :
    (Disk.create path : StateM Volume _).run v = (.ok (.file n), v₁) := by
  simp only [Disk.create, StateT.run, h]

theorem run_create_of_error {e : FileError} (h : v.create path = .error e) :
    (Disk.create path : StateM Volume _).run v = (.error e, v) := by
  simp only [Disk.create, StateT.run, h]

/-- The file `n`, at the place `l` to which a path leads, has got a content, and nothing else has
changed. The file may be new; then no other name stands for it. -/
structure Saves (v v' : Volume) (path : String) (content : ByteArray) (l : Location) (n : Nat) :
    Prop where
  home : v'.home = v.home
  locate : v'.locate path = .ok l
  file : v'.get? l = some (.file n)
  content : v'.content n = content
  others : ∀ k, k ≠ n → v'.content k = v.content k
  entries : ∀ k, k ≠ l → v'.get? k = v.get? k
  place : v.get? l = some (.file n) ∨ v.get? l = none ∧ ∀ k, v.get? k ≠ some (.file n)

theorem Saves.extends (h : Saves v v' path content l n) : Extends v v' := by
  refine ⟨h.home, fun k e hk => ?_⟩
  by_cases hkl : k = l
  · subst hkl
    rcases h.place with hfile | ⟨hfree, -⟩
    · rw [h.file, ← hfile, hk]
    · rw [hfree] at hk
      cases hk
  · rw [h.entries k hkl, hk]

/-- A path, going through its names, passes a location. -/
def Passes (v : Volume) (path : String) (l : Location) : Prop :=
  ∃ names, names <+: Path.names path ∧ v.follow false path names = .ok l

theorem Extends.follow (h : Extends v v') (hdir : v.isDirectoryAt l = true)
    (hfollow : v.follow false path names = .ok l) : v'.follow false path names = .ok l := by
  unfold Volume.follow at hfollow ⊢
  rw [h.home]
  exact walk_of_extends h (isDirectoryAt_iff.mp (h.directory hdir)) (by simp) hfollow

/-- All that making directories for a path can change: free places that the path passes become
directories. -/
structure Made (path : String) (v v' : Volume) : Prop where
  home : v'.home = v.home
  content : v'.content = v.content
  entries : ∀ l, v'.get? l = v.get? l ∨
    v.get? l = none ∧ v'.get? l = some .directory ∧ v'.Passes path l

theorem Made.refl (v : Volume) : Made path v v := ⟨rfl, rfl, fun _ => .inl rfl⟩

theorem Made.extends (h : Made path v v₁) : Extends v v₁ := by
  refine ⟨h.home, fun l e hl => ?_⟩
  rcases h.entries l with hsame | ⟨hfree, -⟩
  · rw [hsame, hl]
  · rw [hfree] at hl
    cases hl

theorem Made.get?_of_file (h : Made path v v₁) (hl : v₁.get? l = some (.file n)) :
    v.get? l = some (.file n) := by
  rcases h.entries l with hsame | ⟨-, hnew, -⟩
  · rw [← hsame, hl]
  · rw [hnew] at hl
    cases hl

theorem Made.trans (h : Made path v v₁) (h' : Made path v₁ v₂) : Made path v v₂ := by
  refine ⟨h'.home.trans h.home, h'.content.trans h.content, fun l => ?_⟩
  rcases h'.entries l with hsame' | ⟨hfree', hnew', hpasses'⟩
  · rcases h.entries l with hsame | ⟨hfree, hnew, names, hnames, hfollow⟩
    · exact .inl (hsame'.trans hsame)
    · exact .inr ⟨hfree, hsame'.trans hnew, names, hnames,
        h'.extends.follow (isDirectoryAt_iff.mpr hnew) hfollow⟩
  · rcases h.entries l with hsame | ⟨-, hnew, -⟩
    · exact .inr ⟨hsame ▸ hfree', hnew', hpasses'⟩
    · rw [hfree'] at hnew
      cases hnew

theorem createDir_eq_ok (h : v.createDir path = .ok v₁) :
    ∃ d name, v.locateName path = .ok (d, some name) ∧ isDots name = false ∧
      name.utf8ByteSize ≤ maxName ∧ v.get? (d ++ [name]) = none ∧
      v₁ = v.put (d ++ [name]) .directory := by
  unfold createDir at h
  rw [bind_eq_ok_iff] at h
  obtain ⟨⟨d, last⟩, hlocate, h⟩ := h
  cases last with
  | none => cases h
  | some name =>
    simp only [unless_eq_ok_iff, pure_eq_ok_iff, Nat.not_lt, Bool.not_eq_true,
      Option.isSome_eq_false_iff, Option.isNone_iff_eq_none] at h
    obtain ⟨hdots, hsize, hfree, rfl⟩ := h
    exact ⟨d, name, hlocate, hdots, hsize, hfree, rfl⟩

theorem made_createDir {q : String} (hq : Path.Above q path) (h : v.createDir q = .ok v₁) :
    Made path v v₁ := by
  obtain ⟨d, name, hlocate, hdots, hsize, hfree, rfl⟩ := createDir_eq_ok h
  obtain ⟨-, above, hnames, hfollow, hdir⟩ := locateName_eq_some hlocate
  have hextends : Extends v (v.put (d ++ [name]) .directory) := extends_put hfree
  refine ⟨rfl, rfl, fun l => ?_⟩
  rw [get?_put (ne_nil_of_get? hfree)]
  split
  · rename_i hl
    subst hl
    refine .inr ⟨hfree, rfl, above ++ [name], hnames ▸ hq.2, ?_⟩
    have hstart : v.follow false path above = .ok d := by
      rw [← hfollow, follow, follow, start, start, hq.1]
    refine walk_append ?_ (hextends.follow hdir hstart)
    rw [turn_of_plain (hextends.directory hdir) hdots hsize, get?_put (ne_nil_of_get? hfree),
      if_pos rfl]
    rfl
  · exact .inl rfl

/-- Making directories changes nothing but free places on the way. -/
theorem made_createDirs (v : Volume) (path : String) : Made path v (v.createDirs path).2 :=
  makeDirs_rel Made.refl (fun _ _ _ => Made.trans) (fun _ _ _ => made_createDir) v

/-! ## Files in a directory -/

/-- A path leads to a directory; the empty path leads to the working directory. -/
def LeadsTo (v : Volume) (path : String) (d : Location) : Prop :=
  v.isDirectoryAt d = true ∧ (path = "" ∧ d = v.home ∨ v.locate path = .ok d)

section
variable (hslash : '/' ∉ name.toList) (hne : name ≠ "")
include hslash

theorem leadsTo_of_join (hrefusal : refusal? (Path.join dir name) = none)
    (hfollow : v.follow false dir (Path.names dir) = .ok d) (hdir : v.isDirectoryAt d = true) :
    v.LeadsTo dir d := by
  refine ⟨hdir, ?_⟩
  by_cases hempty : dir = ""
  · subst hempty
    exact .inl ⟨rfl, (Except.ok.inj hfollow).symm⟩
  · right
    rw [locate, Memory.refusal?_of_join hslash hempty hrefusal, steps]
    dsimp only
    split
    · exact walk_append (by simp [turn, hdir]) hfollow
    · rwa [List.append_nil]

include hne

/-- The path of a file in a directory leads there, or through a link in that place. -/
theorem follow_join (hdots : isDots name = false)
    (h : v.follow free (Path.join dir name) (Path.names (Path.join dir name)) = .ok l) :
    ∃ d, v.follow false dir (Path.names dir) = .ok d ∧ v.isDirectoryAt d = true ∧
      ((∃ target, v.get? (d ++ [name]) = some (.link target)) ∨ l = d ++ [name]) := by
  rw [follow, Path.names_join hslash hne, start, Path.isAbsolute_join hslash] at h
  obtain ⟨d, links, hfollow, hlast⟩ := walk_concat h
  obtain ⟨hdir, -, hplace⟩ := walk_singleton hdots hlast
  exact ⟨d, hfollow, hdir, hplace⟩

end

end SchemaDocs.Volume
