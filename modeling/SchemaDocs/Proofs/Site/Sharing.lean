import SchemaDocs.Proofs.Section.Matching
import SchemaDocs.Proofs.Site.Output

/-!
# Packages that share an identifier

Each file has a package of its own, so several packages may have one identifier. A member that is an
identifier takes the first of them only; another is taken where a member is its display name, and
is left to the default section elsewhere. Main statement: `generate_shares`.
-/

namespace SchemaDocs

open Doc (Package Chapter)

section
variable {ps : List Package} {member : String} {i j : Nat}

private theorem memberPosition?_of_isFirst (h : IsFirst (·.id = member) ps i) :
    memberPosition? ps member = some i := by
  rw [memberPosition?, findIdx?_eq_some_iff_isFirst.mpr h]
  rfl

/-- A package after one of the same identifier is named by a member that is no identifier and is the
display name of no package before. -/
theorem memberPosition?_iff_of_later {p p' : Package} (hij : i < j) (hp : ps[i]? = some p)
    (hp' : ps[j]? = some p') (hid : p.id = p'.id) :
    memberPosition? ps member = some j ↔
      (∀ r ∈ ps, r.id ≠ member) ∧ IsFirst (·.name = member) ps j := by
  have hnot (q : String → Prop) : ¬ IsFirst (fun r => q r.id) ps j := by
    intro h
    obtain ⟨⟨r, hr, hq⟩, hbefore⟩ := h
    rw [hp'] at hr
    cases hr
    rw [← hid] at hq
    exact hbefore i hij p hp hq
  have hsame : ps.findIdx? (·.id = member) ≠ some j := fun h =>
    hnot (· = member) (findIdx?_eq_some_iff_isFirst.mp h)
  have hends : ps.findIdx? (fun r => Name.endsIn r.id member) ≠ some j := by
    intro h
    refine hnot (Name.endsIn · member = true) (findIdx?_eq_some_iff_isFirst.mp ?_)
    simpa using h
  have hnone : ps.findIdx? (·.id = member) = none ↔ ∀ r ∈ ps, r.id ≠ member := by simp
  simp only [memberPosition?, Option.or_eq_some_iff, hsame, false_or, hnone, hends, and_false,
    or_false, findIdx?_eq_some_iff_isFirst]

end

namespace Assignment

variable {config : Configuration} {ps : List Package} {cs : List Claim}

private theorem mem_positions_iff (h : Answers ps (occurrences config) cs) {key : String}
    (hkey : key ≠ defaultKey) {i : Nat} :
    i ∈ positions ps cs key ↔
      ∃ member ∈ membersOf config key, memberPosition? ps member = some i := by
  have hmem : i ∈ claimedPositions cs key ↔ some i ∈ (claimedPositions cs key).map some := by simp
  rw [positions, if_neg hkey, hmem, map_some_claimedPositions h, List.mem_map]

private theorem mem_positions_default_iff (h : Answers ps (occurrences config) cs) {i : Nat} :
    i ∈ positions ps cs defaultKey ↔ i < ps.length ∧
      ∀ key ∈ config.sections.keys, key ≠ defaultKey → i ∉ positions ps cs key := by
  rw [positions, if_pos rfl, freePositions_eq_filter h]
  simp

/-- A section has the display name of a package as a member that is no identifier, and the package
is the first of that display name. -/
def TakesByName (config : Configuration) (ps : List Package) (key : String) (i : Nat) : Prop :=
  ∃ p, ps[i]? = some p ∧ p.name ∈ membersOf config key ∧ (∀ r ∈ ps, r.id ≠ p.name) ∧
    IsFirst (·.name = p.name) ps i

private theorem TakesByName.key {key : String} {i : Nat} (h : TakesByName config ps key i) :
    key ≠ defaultKey ∧ key ∈ config.sections.keys := by
  obtain ⟨p, -, hmember, -⟩ := h
  exact key_of_member hmember

private theorem mem_positions_iff_of_later (h : Answers ps (occurrences config) cs) {i j : Nat}
    {p p' : Package} (hij : i < j) (hp : ps[i]? = some p) (hp' : ps[j]? = some p')
    (hid : p.id = p'.id) {key : String} (hkey : key ≠ defaultKey) :
    j ∈ positions ps cs key ↔ TakesByName config ps key j := by
  simp only [mem_positions_iff h hkey, memberPosition?_iff_of_later hij hp hp' hid]
  constructor
  · intro hmember
    obtain ⟨member, hmember, hnone, hfirst⟩ := hmember
    obtain ⟨r, hr, rfl⟩ := hfirst.1
    exact ⟨r, hr, hmember, hnone, hfirst⟩
  · intro htakes
    obtain ⟨r, -, hmember, hnone, hfirst⟩ := htakes
    exact ⟨r.name, hmember, hnone, hfirst⟩

end Assignment

open Assignment

/-- How chapters share out packages of which several may have one identifier. `places` tells for
each key at which positions of the list the chapter's packages stand. -/
structure Shares (config : Configuration) (ps : List Package) (chapters : KeyMap Chapter)
    (places : String → List Nat) : Prop where
  packages : ∀ key c, chapters.get? key = some c →
    c.packages.map some = (places key).map (ps[·]?)
  /-- Every position has its place in one chapter, once. -/
  once : (chapters.keys.flatMap places).Perm (List.range ps.length)
  /-- A member takes the first package of its identifier. -/
  first : ∀ key member i, member ∈ membersOf config key → IsFirst (·.id = member) ps i →
    ∀ key', i ∈ places key' ↔ key' = key
  /-- The others of the identifier are taken by display name, or left to the default section. -/
  later : ∀ i j p p', i < j → ps[i]? = some p → ps[j]? = some p' → p.id = p'.id →
    ∀ key, j ∈ places key ↔ TakesByName config ps key j ∨
      key = defaultKey ∧ ∀ key', ¬ TakesByName config ps key' j

private theorem exists_shares {config : Configuration} {ps : List Package}
    {chapters : KeyMap Chapter}
    (h : assign config ps = .ok chapters) : ∃ places, Shares config ps chapters places := by
  obtain ⟨cs, hcs, hchapters⟩ := assign_eq_ok_iff.mp h
  have hanswers := answers_claims hcs
  refine ⟨positions ps cs, ?_⟩
  constructor
  case packages => exact fun _ _ hc => packages_of_get? hchapters hanswers hc
  case once => exact perm_positions hanswers chapters.nodup_keys (mem_keys_chapters hchapters)
  case first =>
    intro key member i hmember hfirst key'
    have hi := (mem_positions_iff hanswers (key_of_member hmember).1).mpr
      ⟨member, hmember, memberPosition?_of_isFirst hfirst⟩
    constructor
    · intro hi'
      by_contra hne
      exact disjoint_positions hanswers hne hi' hi
    · rintro rfl
      exact hi
  case later =>
    intro i j p p' hij hp hp' hid key
    have hnamed {key : String} (hkey : key ≠ defaultKey) :=
      mem_positions_iff_of_later hanswers hij hp hp' hid hkey
    by_cases hkey : key = defaultKey
    · subst hkey
      have hj : j < ps.length := (List.getElem?_eq_some_iff.mp hp').1
      have hnot : ¬ TakesByName config ps defaultKey j := fun htakes => htakes.key.1 rfl
      simp only [mem_positions_default_iff hanswers, hj, hnot, true_and, false_or]
      constructor
      · intro hnone key htakes
        obtain ⟨hkey, hmem⟩ := htakes.key
        exact hnone key hmem hkey ((hnamed hkey).mpr htakes)
      · intro hnone key _ hkey hmem
        exact hnone key ((hnamed hkey).mp hmem)
    · simp [hnamed hkey, hkey]

namespace Site

variable {m m' : Memory} {dir : String} {paths : List String} {input : Except FileError ByteArray}
  {config : Configuration}

/-- Where a run succeeds, a member that is the identifier of packages takes the first of them, and
the others stand in a section only by their display names. -/
theorem generate_shares (h : (generate input config dir : StateM Memory _).run m =
      (.ok paths, m')) :
    ∃ s ps pruned used chapters places, Reads input s ∧ s.packages = .ok ps ∧
      prune ps = .ok (pruned, used) ∧ chaptersOf input config = .ok chapters ∧
      paths = chapters.keys.map (filePath dir) ∧
      Shares config (selected s.ordered pruned) chapters places := by
  obtain ⟨chapters, m₁, hof, -, -, hpaths⟩ := run_generate_eq_ok_iff.mp h
  obtain ⟨s, hreads, hchapters⟩ := chaptersOf_eq_ok_iff.mp hof
  obtain ⟨ps, pruned, used, hs, hprune, hassign⟩ := chapters_eq_ok_iff.mp hchapters
  obtain ⟨places, hshares⟩ := exists_shares hassign
  exact ⟨s, ps, pruned, used, chapters, places, hreads, hs, hprune, hof, hpaths, hshares⟩

def branchFile (name : String) (displayName : Option String) : Schema.File :=
  { name, package := "shop", displayName, description := "", enums := [], messages := [],
    services := [], generate := true }

/-- Three files of one package; the second has a display name of its own. -/
def branches : Schema :=
  ⟨[branchFile "a.proto" none, branchFile "b.proto" (some "Extras"), branchFile "c.proto" none]⟩

def branchPackages : List Package :=
  [.bare "shop" "shop", .bare "shop" "Extras", .bare "shop" "shop"]

def branchInput : Except FileError ByteArray := .ok (prettyText branches.toJson).toUTF8

private theorem ordered_branches : branches.ordered = branches.files :=
  List.mergeSort_of_pairwise (by decide)

private theorem packages_branches : branches.packages = .ok branchPackages := by
  rw [Schema.packages_eq_ok_iff, ordered_branches]
  exact ⟨rfl, by cbv⟩

private theorem prune_branchPackages : prune branchPackages = .ok (branchPackages, KeyMap.empty) :=
  prune_eq_ok_iff.mpr ⟨by cbv, by cbv, by cbv⟩

private theorem reads_branchInput : Reads branchInput branches := reads_toJson (by decide)

private theorem chaptersOf_branchInput {chapters : KeyMap Chapter}
    (h : assign config branchPackages = .ok chapters) :
    chaptersOf branchInput config = .ok chapters := by
  refine chaptersOf_eq_ok_iff.mpr ⟨_, reads_branchInput, chapters_eq_ok_iff.mpr
    ⟨_, _, _, packages_branches, prune_branchPackages, ?_⟩⟩
  rw [ordered_branches]
  exact h

def splitChapters : KeyMap Chapter :=
  KeyMap.ofList
    [("default", ⟨"default", "", 0, [.bare "shop" "Extras", .bare "shop" "shop"]⟩),
      ("sales", ⟨"Sales", "", 3, [.bare "shop" "shop"]⟩)]

/-- A member that is an identifier does not take all packages of that identifier. -/
theorem not_generate_takes_all : ¬ ∀ (input : Except FileError ByteArray) (config : Configuration)
    (dir : String) (m m' : Memory) (paths : List String) (chapters : KeyMap Chapter),
    config.Loaded → (generate input config dir : StateM Memory _).run m = (.ok paths, m') →
    chaptersOf input config = .ok chapters →
    ∀ key member, member ∈ membersOf config key → ∀ key' c, chapters.get? key' = some c →
      ∀ p ∈ c.packages, p.id = member → key' = key := by
  intro hall
  have hchapters : chaptersOf branchInput salesConfiguration = .ok splitChapters :=
    chaptersOf_branchInput rfl
  obtain ⟨m', hrun⟩ : ∃ m', (generate branchInput salesConfiguration "out" :
      StateM Memory _).run .empty = (.ok ["out/default.json", "out/sales.json"], m') :=
    ⟨_, run_generate_eq_ok_iff.mpr ⟨splitChapters, _, hchapters, rfl,
      .cons rfl (.cons rfl .nil), rfl⟩⟩
  have hsame : "default" = "sales" :=
    hall branchInput salesConfiguration "out" .empty m' _ splitChapters loaded_salesConfiguration
      hrun hchapters "sales" "shop" (by decide) "default" _ rfl (.bare "shop" "Extras")
      List.mem_cons_self rfl
  exact absurd hsame (by decide)

/-- One section, for the identifier and for the display name of the second file. -/
def branchConfiguration : Configuration :=
  ⟨KeyMap.ofList [("sales", ⟨"Sales", ["Extras", "shop"], "", 3⟩)]⟩

def branchChapters : KeyMap Chapter :=
  KeyMap.ofList
    [("default", ⟨"default", "", 0, [.bare "shop" "shop"]⟩),
      ("sales", ⟨"Sales", "", 3, [.bare "shop" "Extras", .bare "shop" "shop"]⟩)]

/-- The section takes the first package and that with a display name, and the third is left. -/
theorem generate_shares_branches : ∃ m' s ps pruned used places,
    (generate branchInput branchConfiguration "out" : StateM Memory _).run .empty =
      (.ok ["out/default.json", "out/sales.json"], m') ∧
    Reads branchInput s ∧ s.packages = .ok ps ∧ prune ps = .ok (pruned, used) ∧
    selected s.ordered pruned = branchPackages ∧
    Shares branchConfiguration branchPackages branchChapters places ∧
    0 ∈ places "sales" ∧ 1 ∈ places "sales" ∧ 2 ∈ places "default" := by
  have hof : chaptersOf branchInput branchConfiguration = .ok branchChapters :=
    chaptersOf_branchInput rfl
  obtain ⟨m', hrun⟩ : ∃ m', (generate branchInput branchConfiguration "out" :
      StateM Memory _).run .empty = (.ok ["out/default.json", "out/sales.json"], m') :=
    ⟨_, run_generate_eq_ok_iff.mpr ⟨branchChapters, _, hof, rfl,
      .cons rfl (.cons rfl .nil), rfl⟩⟩
  obtain ⟨s, ps, pruned, used, chapters, places, hreads, hs, hprune, hof', -, hshares⟩ :=
    generate_shares hrun
  obtain rfl : s = branches := hreads.unique reads_branchInput
  obtain rfl : ps = branchPackages := Except.ok.inj (hs.symm.trans packages_branches)
  obtain ⟨rfl, rfl⟩ : pruned = branchPackages ∧ used = KeyMap.empty :=
    Prod.mk.inj (Except.ok.inj (hprune.symm.trans prune_branchPackages))
  obtain rfl : chapters = branchChapters := Except.ok.inj (hof'.symm.trans hof)
  have hselected : selected branches.ordered branchPackages = branchPackages := by
    rw [ordered_branches]
    rfl
  rw [hselected] at hshares
  refine ⟨m', _, _, _, _, places, hrun, hreads, hs, hprune, hselected, hshares, ?_, ?_, ?_⟩
  · have hfirst : IsFirst (·.id = "shop") branchPackages 0 := ⟨⟨_, rfl, rfl⟩, by simp⟩
    exact (hshares.first "sales" "shop" 0 (by decide) hfirst "sales").mpr rfl
  · refine (hshares.later 0 1 _ _ Nat.zero_lt_one rfl rfl rfl "sales").mpr (.inl ?_)
    have hfirst : IsFirst (·.name = "Extras") branchPackages 1 :=
      ⟨⟨_, rfl, rfl⟩, by simp [branchPackages, Package.bare]⟩
    exact ⟨_, rfl, by decide, by decide, hfirst⟩
  · refine (hshares.later 0 2 _ _ Nat.zero_lt_two rfl rfl rfl "default").mpr (.inr ⟨rfl, ?_⟩)
    intro key htakes
    obtain ⟨p, hp, -, hnone, -⟩ := htakes
    cases hp
    exact hnone (.bare "shop" "shop") List.mem_cons_self rfl

end Site
end SchemaDocs
