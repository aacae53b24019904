import SchemaDocs.Proofs.Files.Volume
import SchemaDocs.Proofs.Site.Run
import SchemaDocs.Proofs.Survival

/-!
# Files of a site

Where a run succeeds, the output directory has an entry for every section and one for the default
section. The files to which these lead hold the sections' chapters, and no other file has changed.
An entry that is a link, or a name of a file that has other names, leads elsewhere than its name
says; where there are none, each chapter stands in a file of its own in the output directory, and
nothing else in the file system has changed, but for directories that were made on the way there.
Main statement: `generate_output`.
-/

namespace SchemaDocs.Site

open Doc (Chapter)
open Section (canNameFile fileName)
open Volume (Extends Made Saves)

variable {v v₁ v' : Volume} {dir : String} {d l : Location} {n : Nat} {c : Chapter} {key : String}
  {es : List (String × Chapter)} {input : Except FileError ByteArray} {config : Configuration}
  {chapters : KeyMap Chapter} {paths : List String}

/-! ## Saved chapters -/

/-- Chapters of which each was saved where its path leads, the later ones over the earlier. -/
structure Saved (dir : String) (es : List (String × Chapter)) (v v' : Volume) : Prop where
  grows : Extends v v'
  files : ∀ e ∈ es, ∃ n, v'.fileAt? (filePath dir e.1) = some n
  contents : ∀ before e after, es = before ++ e :: after →
    ∀ n, v'.fileAt? (filePath dir e.1) = some n →
      (∀ x ∈ after, v'.fileAt? (filePath dir x.1) ≠ some n) →
      v'.content n = (fileText e.2).toUTF8
  others : ∀ n, (∀ e ∈ es, v'.fileAt? (filePath dir e.1) ≠ some n) → v'.content n = v.content n
  entries : ∀ l, v'.get? l = v.get? l ∨
    v.get? l = none ∧ ∃ e ∈ es, v'.locate (filePath dir e.1) = .ok l
  names : ∀ l k n, l ≠ k → v'.get? l = some (.file n) → v'.get? k = some (.file n) →
    v.get? l = some (.file n) ∧ v.get? k = some (.file n)

private theorem Saved.nil : Saved dir [] v v := by
  constructor
  case grows => exact Extends.refl v
  case files => simp
  case contents => simp
  case others => exact fun _ _ => rfl
  case entries => exact fun _ => .inl rfl
  case names => exact fun _ _ _ _ hl hk => ⟨hl, hk⟩

private theorem names_of_saves {text : ByteArray} {path : String} {l₀ k : Location} {n₀ : Nat}
    (hsaves : Saves v v₁ path text l₀ n₀) (hne : l ≠ k) (hl : v₁.get? l = some (.file n))
    (hk : v₁.get? k = some (.file n)) : v.get? l = some (.file n) ∧ v.get? k = some (.file n) := by
  by_cases hll : l = l₀
  · subst hll
    have hkv := hsaves.entries k hne.symm ▸ hk
    rw [hsaves.file] at hl
    cases hl
    rcases hsaves.place with hold | ⟨-, hnew⟩
    · exact ⟨hold, hkv⟩
    · exact absurd hkv (hnew k)
  · have hlv := hsaves.entries l hll ▸ hl
    by_cases hkl : k = l₀
    · subst hkl
      rw [hsaves.file] at hk
      cases hk
      rcases hsaves.place with hold | ⟨-, hnew⟩
      · exact ⟨hlv, hold⟩
      · exact absurd hlv (hnew l)
    · exact ⟨hlv, hsaves.entries k hkl ▸ hk⟩

private theorem Saved.cons {l₀ : Location} {n₀ : Nat}
    (hsaves : Saves v v₁ (filePath dir key) (fileText c).toUTF8 l₀ n₀) (h : Saved dir es v₁ v') :
    Saved dir ((key, c) :: es) v v' := by
  have hfile : v₁.fileAt? (filePath dir key) = some n₀ :=
    Volume.fileAt?_eq_some_iff.mpr ⟨l₀, hsaves.locate, hsaves.file⟩
  have hfile' := h.grows.fileAt? hfile
  constructor
  case grows => exact hsaves.extends.trans h.grows
  case files => exact List.forall_mem_cons.mpr ⟨⟨n₀, hfile'⟩, h.files⟩
  case contents =>
    intro before e after hsplit n hn hlater
    cases before with
    | nil =>
      cases hsplit
      rw [hfile'] at hn
      cases hn
      rw [h.others n₀ hlater, hsaves.content]
    | cons first before =>
      cases hsplit
      exact h.contents before e after rfl n hn hlater
  case others =>
    intro n hn
    obtain ⟨hkey, hrest⟩ := List.forall_mem_cons.mp hn
    rw [h.others n hrest]
    refine hsaves.others n ?_
    rintro rfl
    exact hkey hfile'
  case entries =>
    intro l
    rcases h.entries l with hsame | ⟨hfree, e, he, hlocate⟩
    · by_cases hl : l = l₀
      · subst hl
        rcases hsaves.place with hold | ⟨hfree, -⟩
        · exact .inl (by rw [hsame, hsaves.file, hold])
        · have hthere := h.grows.entries _ _ hsaves.file
          exact .inr ⟨hfree, (key, c), List.mem_cons_self,
            h.grows.locate hthere (by simp) hsaves.locate⟩
      · exact .inl (hsame.trans (hsaves.entries l hl))
    · exact .inr ⟨hsaves.extends.eq_none hfree, e, List.mem_cons_of_mem _ he, hlocate⟩
  case names =>
    intro l k n hne hl hk
    obtain ⟨hl, hk⟩ := h.names l k n hne hl hk
    exact names_of_saves hsaves hne hl hk

/-- All that a run does that succeeds. Each section has its entry in the directory `d`; the file to
which it leads holds the text of the last section whose entry leads there. -/
structure Output (config : Configuration) (chapters : KeyMap Chapter) (dir : String) (d : Location)
    (v v' : Volume) (paths : List String) : Prop where
  keys : ∀ key, key ∈ chapters.keys ↔ key = defaultKey ∨ key ∈ config.sections.keys
  order : chapters.keys.Pairwise (· < ·)
  written : paths = chapters.keys.map fun key => Path.join dir (key ++ ".json")
  distinct : paths.Nodup
  directory : v'.LeadsTo dir d
  children : ∀ key ∈ chapters.keys,
    ∃ e, v'.get? (d ++ [key ++ ".json"]) = some e ∧ e ≠ .directory
  files : ∀ key ∈ chapters.keys, ∃ n, v'.fileAt? (Path.join dir (key ++ ".json")) = some n
  contents : ∀ before e after, chapters.entries = before ++ e :: after →
    ∀ n, v'.fileAt? (Path.join dir (e.1 ++ ".json")) = some n →
      (∀ x ∈ after, v'.fileAt? (Path.join dir (x.1 ++ ".json")) ≠ some n) →
      v'.content n = (prettyText e.2.toJson ++ "\n").toUTF8
  otherFiles : ∀ n, (∀ path ∈ paths, v'.fileAt? path ≠ some n) → v'.content n = v.content n
  entries : ∀ l, v'.get? l = v.get? l ∨ v.get? l = none ∧
    (v'.get? l = some .directory ∧ v'.Passes dir l ∨ ∃ path ∈ paths, v'.locate path = .ok l)
  names : ∀ l k n, l ≠ k → v'.get? l = some (.file n) → v'.get? k = some (.file n) →
    v.get? l = some (.file n) ∧ v.get? k = some (.file n)

/-- No section's entry in the directory `d` is a link, or stands for a file with another name. -/
def Unlinked (v : Volume) (d : Location) (keys : List String) : Prop :=
  ∀ key ∈ keys, (∀ target, v.get? (d ++ [key ++ ".json"]) ≠ some (.link target)) ∧
    ∀ n l, v.get? (d ++ [key ++ ".json"]) = some (.file n) → v.get? l = some (.file n) →
      l = d ++ [key ++ ".json"]

/-- Each chapter stands in the file of its section in the directory `d`, and all else is as it was,
but for directories that were made on the way there. -/
structure PlainOutput (chapters : KeyMap Chapter) (dir : String) (d : Location) (v v' : Volume) :
    Prop where
  children : ∀ e ∈ chapters.entries,
    v'.locate (Path.join dir (e.1 ++ ".json")) = .ok (d ++ [e.1 ++ ".json"])
  contents : ∀ e ∈ chapters.entries,
    v'.readAt (d ++ [e.1 ++ ".json"]) = .ok (prettyText e.2.toJson ++ "\n").toUTF8
  frame : ∀ l, (∀ e ∈ chapters.entries, l ≠ d ++ [e.1 ++ ".json"]) →
    v'.get? l = v.get? l ∧ v'.readAt l = v.readAt l ∨
      v.get? l = none ∧ v'.get? l = some .directory ∧ v'.Passes dir l

private theorem isDots_fileName (key : String) : Memory.isDots (fileName key) = false := by
  have hlength (name : String) (h : fileName key = name) : 5 ≤ name.toList.length := by
    rw [← h, fileName, String.toList_append, List.length_append]
    exact Nat.le_add_left 5 _
  rw [Memory.isDots_eq_false_iff]
  exact ⟨fun h => absurd (hlength _ h) (by decide), fun h => absurd (hlength _ h) (by decide)⟩

/-- The path of a section's file leads to its entry in the output directory, and on from there if
the entry is a link. -/
theorem locate_filePath (hname : canNameFile key = true) (h : v.locate (filePath dir key) = .ok l) :
    ∃ d, v.LeadsTo dir d ∧ v.follow false dir (Path.names dir) = .ok d ∧
      ((∃ target, v.get? (d ++ [fileName key]) = some (.link target)) ∨
        l = d ++ [fileName key]) := by
  have hslash := Section.slash_not_mem_fileName hname
  have hne := Section.fileName_ne_empty key
  obtain ⟨hrefusal, hfollow⟩ := Volume.locate_eq_ok h
  have hends : Path.endsInSlash (filePath dir key) = false := Path.endsInSlash_join hslash hne
  rw [Volume.steps, if_neg (by simp [hends]), List.append_nil] at hfollow
  obtain ⟨d, hdir, hd, hplace⟩ :=
    Volume.follow_join hslash hne (isDots_fileName key) hfollow
  exact ⟨d, Volume.leadsTo_of_join hslash hrefusal hdir hd, hdir, hplace⟩

private theorem nodup_filePaths {keys : List String} (hnames : ∀ key ∈ keys, canNameFile key = true)
    (hkeys : keys.Nodup) : (keys.map (filePath dir)).Nodup := by
  refine List.Nodup.map_on (fun key hkey key' hkey' hsame => ?_) hkeys
  have hplain {key : String} (hkey : key ∈ keys) :
      Path.names (filePath dir key) = Path.names dir ++ [fileName key] :=
    Path.names_join (Section.slash_not_mem_fileName (hnames key hkey))
      (Section.fileName_ne_empty key)
  have hpath := congrArg Path.names hsame
  rw [hplain hkey, hplain hkey'] at hpath
  exact Section.fileName_injective (by simpa using hpath)

private theorem Saved.exists_entry {e : String × Chapter} (h : Saved dir es v v') (he : e ∈ es)
    (hname : canNameFile e.1 = true) : ∃ d, v'.LeadsTo dir d ∧
      v'.follow false dir (Path.names dir) = .ok d ∧
        ∃ entry, v'.get? (d ++ [fileName e.1]) = some entry ∧ entry ≠ .directory := by
  obtain ⟨n, hn⟩ := h.files e he
  obtain ⟨l, hlocate, hget⟩ := Volume.fileAt?_eq_some_iff.mp hn
  obtain ⟨d, hdir, hfollow, hlink | rfl⟩ := locate_filePath hname hlocate
  · obtain ⟨target, hlink⟩ := hlink
    exact ⟨d, hdir, hfollow, _, hlink, by simp⟩
  · exact ⟨d, hdir, hfollow, _, hget, by simp⟩

private theorem Saved.output (hmade : Made dir v v₁) (h : Saved dir chapters.entries v₁ v')
    (hkeys : ∀ key, key ∈ chapters.keys ↔ key = defaultKey ∨ key ∈ config.sections.keys)
    (hnames : ∀ key ∈ chapters.keys, canNameFile key = true) :
    ∃ d, v'.follow false dir (Path.names dir) = .ok d ∧
      Output config chapters dir d v v' (chapters.keys.map (filePath dir)) := by
  have hpaths {p : String → Prop} : (∀ path ∈ chapters.keys.map (filePath dir), p path) ↔
      ∀ e ∈ chapters.entries, p (filePath dir e.1) := by
    rw [KeyMap.keys, List.forall_mem_map, List.forall_mem_map]
  have hentry {key : String} (hkey : key ∈ chapters.keys) :
      ∃ e ∈ chapters.entries, e.1 = key := List.mem_map.mp hkey
  obtain ⟨first, hfirst, -⟩ := hentry ((hkeys defaultKey).mpr (.inl rfl))
  obtain ⟨d, hdir, hfollow, -⟩ :=
    h.exists_entry hfirst (hnames _ (List.mem_map_of_mem hfirst))
  refine ⟨d, hfollow, ?_⟩
  constructor
  case keys => exact hkeys
  case order => exact List.pairwise_map.mpr chapters.sorted
  case written => rfl
  case distinct => exact nodup_filePaths hnames chapters.nodup_keys
  case directory => exact hdir
  case children =>
    intro key hkey
    obtain ⟨e, he, rfl⟩ := hentry hkey
    obtain ⟨d', -, hfollow', hthere⟩ := h.exists_entry he (hnames _ hkey)
    rw [hfollow] at hfollow'
    cases hfollow'
    exact hthere
  case files =>
    intro key hkey
    obtain ⟨e, he, rfl⟩ := hentry hkey
    exact h.files e he
  case contents => exact h.contents
  case otherFiles =>
    intro n hn
    rw [h.others n (hpaths.mp hn), hmade.content]
  case entries =>
    intro l
    rcases h.entries l with hsame | ⟨hfree, e, he, hlocate⟩
    · rcases hmade.entries l with hkept | ⟨hfree, hnew, names, hpassed, hleads⟩
      · exact .inl (hsame.trans hkept)
      · exact .inr ⟨hfree, .inl ⟨hsame.trans hnew, names, hpassed,
          h.grows.follow (Volume.isDirectoryAt_iff.mpr hnew) hleads⟩⟩
    · exact .inr ⟨hmade.extends.eq_none hfree,
        .inr ⟨_, List.mem_map_of_mem (List.mem_map_of_mem he), hlocate⟩⟩
  case names =>
    intro l k n hne hl hk
    obtain ⟨hl, hk⟩ := h.names l k n hne hl hk
    exact ⟨hmade.get?_of_file hl, hmade.get?_of_file hk⟩

private theorem Output.exists_entry (h : Output config chapters dir d v v' paths) {path : String}
    (hpath : path ∈ paths) : ∃ e ∈ chapters.entries, path = filePath dir e.1 := by
  rw [h.written] at hpath
  obtain ⟨key, hkey, rfl⟩ := List.mem_map.mp hpath
  obtain ⟨e, he, rfl⟩ := List.mem_map.mp hkey
  exact ⟨e, he, rfl⟩

private theorem Output.exists_file (h : Output config chapters dir d v v' paths) {path : String}
    (hpath : path ∈ paths) (hlocate : v'.locate path = .ok l) :
    ∃ n, v'.get? l = some (.file n) := by
  obtain ⟨e, he, rfl⟩ := h.exists_entry hpath
  obtain ⟨n, hn⟩ := h.files e.1 (List.mem_map_of_mem he)
  rw [filePath] at hlocate
  obtain ⟨l', hlocate', hget⟩ := Volume.fileAt?_eq_some_iff.mp hn
  rw [hlocate] at hlocate'
  cases hlocate'
  exact ⟨n, hget⟩

private theorem Output.locate_eq (h : Output config chapters dir d v v' paths)
    (hfollow : v'.follow false dir (Path.names dir) = .ok d)
    (hunlinked : Unlinked v d chapters.keys) (hname : canNameFile key = true)
    (hkey : key ∈ chapters.keys) :
    v'.locate (filePath dir key) = .ok (d ++ [fileName key]) := by
  obtain ⟨n, hn⟩ := h.files key hkey
  obtain ⟨l, hlocate, -⟩ := Volume.fileAt?_eq_some_iff.mp hn
  obtain ⟨d', -, hfollow', hplace⟩ := locate_filePath hname hlocate
  rw [hfollow] at hfollow'
  cases hfollow'
  rcases hplace with ⟨target, hlink⟩ | rfl
  · rcases h.entries (d ++ [fileName key]) with hsame | ⟨-, ⟨hnew, -⟩ | ⟨path, hpath, hleads⟩⟩
    · exact absurd (hsame ▸ hlink) ((hunlinked key hkey).1 target)
    · rw [hnew] at hlink
      cases hlink
    · obtain ⟨k, hfile⟩ := h.exists_file hpath hleads
      rw [hfile] at hlink
      cases hlink
  · exact hlocate

private theorem fst_ne_of_entries {before after : List (String × Chapter)} {e x : String × Chapter}
    (hsplit : chapters.entries = before ++ e :: after) (hx : x ∈ after) : x.1 ≠ e.1 := by
  have hdistinct : (chapters.entries.map (·.1)).Nodup := chapters.nodup_keys
  rw [hsplit, List.map_append, List.map_cons] at hdistinct
  have hrest := (List.nodup_cons.mp (List.nodup_append.mp hdistinct).2.1).1
  intro hname
  exact hrest (hname ▸ List.mem_map_of_mem hx)

private theorem Output.eq_of_file (h : Output config chapters dir d v v' paths)
    (hunlinked : Unlinked v d chapters.keys) (hkey : key ∈ chapters.keys)
    (hn : v'.get? (d ++ [fileName key]) = some (.file n)) (hl : v'.get? l = some (.file n)) :
    l = d ++ [fileName key] := by
  by_contra hne
  obtain ⟨hl, hn⟩ := h.names l _ n hne hl hn
  exact hne ((hunlinked key hkey).2 n l hn hl)

private theorem Output.plain (h : Output config chapters dir d v v' paths)
    (hfollow : v'.follow false dir (Path.names dir) = .ok d)
    (hnames : ∀ key ∈ chapters.keys, canNameFile key = true)
    (hunlinked : Unlinked v d chapters.keys) : PlainOutput chapters dir d v v' := by
  have hkey {e : String × Chapter} (he : e ∈ chapters.entries) : e.1 ∈ chapters.keys :=
    List.mem_map_of_mem he
  have hlocate {e : String × Chapter} (he : e ∈ chapters.entries) :
      v'.locate (filePath dir e.1) = .ok (d ++ [fileName e.1]) :=
    h.locate_eq hfollow hunlinked (hnames _ (hkey he)) (hkey he)
  have hfile {e : String × Chapter} (he : e ∈ chapters.entries) {n : Nat} :
      v'.fileAt? (filePath dir e.1) = some n ↔ v'.get? (d ++ [fileName e.1]) = some (.file n) := by
    rw [Volume.fileAt?_eq_some_iff, hlocate he]
    simp
  constructor
  case children => exact fun e he => hlocate he
  case contents =>
    intro e he
    obtain ⟨before, after, hsplit⟩ := List.append_of_mem he
    obtain ⟨n, hn⟩ := h.files e.1 (hkey he)
    have hn' := (hfile he).mp hn
    rw [Volume.readAt, show v'.get? (d ++ [e.1 ++ ".json"]) = _ from hn']
    refine congrArg Except.ok (h.contents before e after hsplit n hn fun x hx hxn => ?_)
    have hx' : x ∈ chapters.entries := hsplit ▸ List.mem_append_right _ (List.mem_cons_of_mem _ hx)
    have hsame := h.eq_of_file hunlinked (hkey he) hn' ((hfile hx').mp hxn)
    have hname : x.1 = e.1 := Section.fileName_injective (by simpa using hsame)
    exact fst_ne_of_entries hsplit hx hname
  case frame =>
    intro l hl
    rcases h.entries l with hsame | ⟨hfree, ⟨hnew, hpasses⟩ | ⟨path, hpath, hleads⟩⟩
    · refine .inl ⟨hsame, Volume.readAt_congr hsame fun n hn => ?_⟩
      refine h.otherFiles n fun path hpath hpathn => ?_
      obtain ⟨e, he, rfl⟩ := h.exists_entry hpath
      exact hl e he (h.eq_of_file hunlinked (hkey he) ((hfile he).mp hpathn) (hsame.trans hn))
    · exact .inr ⟨hfree, hnew, hpasses⟩
    · obtain ⟨e, he, rfl⟩ := h.exists_entry hpath
      have hplace := hlocate he
      rw [hleads] at hplace
      cases hplace
      exact absurd rfl (hl e he)

/-- One section for the shop; other packages are left to the default section. -/
def salesConfiguration : Configuration := ⟨KeyMap.ofList [("sales", ⟨"Sales", ["shop"], "", 3⟩)]⟩

theorem loaded_salesConfiguration : salesConfiguration.Loaded := by
  let text := "[sales]\nname = \"Sales\"\npackages = \"shop\"\nweight = \" 3\"\n"
  have hentries : ((Configuration.fromText "" text : StateM Memory _).run .empty).1.toOption.map
      (·.sections.entries) = some salesConfiguration.sections.entries := by
    decide +kernel
  exact Configuration.loaded_of_entries hentries

/-- The input that states the shop. -/
def shopInput : Except FileError ByteArray := .ok (prettyText Schema.servedShop.toJson).toUTF8

def salesChapters : KeyMap Chapter :=
  KeyMap.ofList
    [("default", ⟨"default", "", 0, [Schema.servedPackages[0].restrict Schema.servedNames]⟩),
      ("sales", ⟨"Sales", "", 3, [Schema.servedPackages[1].restrict Schema.servedNames]⟩)]

theorem chaptersOf_shopInput : chaptersOf shopInput salesConfiguration = .ok salesChapters := by
  have hreads : Reads shopInput Schema.servedShop := reads_toJson (by decide)
  refine chaptersOf_eq_ok_iff.mpr ⟨_, hreads, chapters_eq_ok_iff.mpr
    ⟨_, _, _, Schema.packages_servedShop, Schema.prune_servedPackages, ?_⟩⟩
  rw [Schema.ordered_servedShop]
  rfl

end SchemaDocs.Site
