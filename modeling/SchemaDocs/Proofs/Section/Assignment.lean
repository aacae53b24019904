import Mathlib.Data.List.Nodup
import SchemaDocs.Proofs.Except
import SchemaDocs.Proofs.KeyMap
import SchemaDocs.Section.Assignment

/-!
# Sections as a partition

Every member claims one position of the list of packages, and no position is claimed twice. So the
sections share out the positions: a named section has those of its members, in their order, and the
default section has the others. Main statement: `assign_partition`.
-/

namespace SchemaDocs

open Doc (Package Chapter)

variable {config : Configuration} {ps : List Package}

theorem memberPosition?_lt {member : String} {i : Nat} (h : memberPosition? ps member = some i) :
    i < ps.length := by
  have hfound (p : Package → Bool) (hp : ps.findIdx? p = some i) : i < ps.length :=
    (List.findIdx?_eq_some_iff_getElem.mp hp).1
  simp only [memberPosition?, Option.or_eq_some_iff] at h
  rcases h with h | ⟨-, h | ⟨-, h⟩⟩
  · exact hfound _ h
  · exact hfound _ h
  · exact hfound _ h

namespace Assignment

variable {cs cs' : List Claim}

private theorem claim_eq_ok_iff {key member : String} :
    claim ps cs key member = .ok cs' ↔ ∃ i, memberPosition? ps member = some i ∧
      (∀ c ∈ cs, c.position ≠ i) ∧ cs' = cs ++ [⟨i, key⟩] := by
  unfold claim
  split
  · rename_i hnone
    simp [hnone]
  · rename_i i hi
    rw [hi]
    split
    · rename_i first hfirst
      have hposition : first.position = i := by simpa using List.find?_some hfirst
      constructor
      · intro h
        cases h
      · intro h
        obtain ⟨j, hj, hfree, -⟩ := h
        cases hj
        exact absurd hposition (hfree first (List.mem_of_find?_eq_some hfirst))
    · rename_i hnone
      have hfree : ∀ c ∈ cs, c.position ≠ i := by simpa using hnone
      constructor
      · intro h
        cases h
        exact ⟨i, rfl, hfree, rfl⟩
      · intro h
        obtain ⟨j, hj, -, rfl⟩ := h
        cases hj
        rfl

/-- The claims that a row of occurrences makes: in its order, each for the position that its member
names, and all for different positions. -/
structure Answers (ps : List Package) (os : List (String × String)) (cs : List Claim) : Prop where
  matched : cs.map (fun c => (c.key, some c.position)) =
    os.map fun o => (o.1, memberPosition? ps o.2)
  distinct : (cs.map (·.position)).Nodup

theorem Answers.claim {os : List (String × String)} {o : String × String} (h : Answers ps os cs)
    (hclaim : claim ps cs o.1 o.2 = .ok cs') : Answers ps (os ++ [o]) cs' := by
  obtain ⟨i, hi, hfree, rfl⟩ := claim_eq_ok_iff.mp hclaim
  constructor
  · rw [List.map_append, List.map_append, h.matched, List.map_singleton, List.map_singleton, hi]
  · have hnot : i ∉ cs.map (·.position) := fun hmem =>
      have ⟨c, hc, hposition⟩ := List.mem_map.mp hmem
      hfree c hc hposition
    rw [List.map_append, List.map_singleton, List.nodup_append_comm, List.singleton_append]
    exact List.nodup_cons.mpr ⟨hnot, h.distinct⟩

private theorem answers_foldlM {done os : List (String × String)} (h : Answers ps done cs)
    (hrun : os.foldlM (fun cs o => Assignment.claim ps cs o.1 o.2) cs = .ok cs') :
    Answers ps (done ++ os) cs' := by
  induction os generalizing done cs with
  | nil =>
    rw [List.foldlM_nil, pure_eq_ok_iff] at hrun
    rw [List.append_nil, ← hrun]
    exact h
  | cons o os ih =>
    rw [List.foldlM_cons, bind_eq_ok_iff] at hrun
    obtain ⟨next, hclaim, hrun⟩ := hrun
    simpa using ih (h.claim hclaim) hrun

theorem answers_claims (h : claims config ps = .ok cs) : Answers ps (occurrences config) cs := by
  have hstart : Answers ps [] [] := ⟨rfl, List.nodup_nil⟩
  exact answers_foldlM hstart h

/-! ## The positions of a section -/

/-- The members that a key stands for: none for the default section. -/
def membersOf (config : Configuration) (key : String) : List String :=
  if key = defaultKey then [] else ((config.sections.get? key).map (·.members)).getD []

theorem key_of_member {member key : String} (h : member ∈ membersOf config key) :
    key ≠ defaultKey ∧ key ∈ config.sections.keys := by
  unfold membersOf at h
  split at h
  · cases h
  · rename_i hkey
    refine ⟨hkey, KeyMap.mem_keys_iff.mpr ?_⟩
    cases hget : config.sections.get? key with
    | none => simp [hget] at h
    | some s => exact ⟨s, rfl⟩

private theorem filter_occurrences (config : Configuration) (key : String) :
    (occurrences config).filter (·.1 = key) = (membersOf config key).map (key, ·) := by
  have hother {e : String × Section} (he : e.1 ≠ key) :
      (if e.1 = defaultKey then [] else e.2.members.map (e.1, ·)).filter
        (fun o => decide (o.1 = key)) = [] := by
    split
    · rfl
    · rw [List.filter_map]
      simp [Function.comp_def, he]
  rw [occurrences, List.filter_flatMap, membersOf]
  cases hget : config.sections.get? key with
  | none =>
    have hall : ∀ e ∈ config.sections.entries, e.1 ≠ key := by
      intro e he hkey
      rw [← hkey, KeyMap.get?_eq_some_iff.mpr he] at hget
      cases hget
    rw [List.flatMap_eq_nil_iff.mpr fun e he => hother (hall e he)]
    simp
  | some s =>
    obtain ⟨before, after, hsplit⟩ := List.append_of_mem (KeyMap.get?_eq_some_iff.mp hget)
    have hkeys := config.sections.nodup_keys
    rw [KeyMap.keys, hsplit, List.map_append, List.map_cons] at hkeys
    obtain ⟨hmid, -⟩ := List.nodup_cons.mp (List.perm_middle.nodup_iff.mp hkeys)
    have hne : ∀ e, e ∈ before ∨ e ∈ after → e.1 ≠ key := by
      intro e he hkey
      rw [← List.map_append] at hmid
      exact hmid (List.mem_map.mpr ⟨e, List.mem_append.mpr he, hkey⟩)
    rw [hsplit, List.flatMap_append, List.flatMap_cons,
      List.flatMap_eq_nil_iff.mpr fun e he => hother (hne e (.inl he)),
      List.flatMap_eq_nil_iff.mpr fun e he => hother (hne e (.inr he)), List.nil_append,
      List.append_nil, Option.map_some, Option.getD_some]
    by_cases hdefault : key = defaultKey
    · simp [hdefault]
    · simp [hdefault, List.filter_map, Function.comp_def]

/-- The positions that a section claims, in the order of its members. -/
def claimedPositions (cs : List Claim) (key : String) : List Nat :=
  (cs.filter (·.key = key)).map (·.position)

/-- The positions that no section claims. -/
def freePositions (ps : List Package) (cs : List Claim) : List Nat :=
  (List.range ps.length).filter (· ∉ cs.map (·.position))

/-- The positions of a section, the default one among them. -/
def positions (ps : List Package) (cs : List Claim) (key : String) : List Nat :=
  if key = defaultKey then freePositions ps cs else claimedPositions cs key

theorem map_some_claimedPositions (h : Answers ps (occurrences config) cs) (key : String) :
    (claimedPositions cs key).map some = (membersOf config key).map (memberPosition? ps) := by
  have hfilter := congrArg (List.filter fun x => decide (x.1 = key)) h.matched
  simp only [List.filter_map, Function.comp_def, filter_occurrences] at hfilter
  have hsnd := congrArg (List.map Prod.snd) hfilter
  simpa [claimedPositions, Function.comp_def] using hsnd

private theorem mem_claimedPositions {key : String} {i : Nat} :
    i ∈ claimedPositions cs key ↔ ∃ c ∈ cs, c.key = key ∧ c.position = i := by
  simp [claimedPositions, and_assoc]

private theorem mem_freePositions {i : Nat} :
    i ∈ freePositions ps cs ↔ i < ps.length ∧ ∀ c ∈ cs, c.position ≠ i := by
  simp [freePositions]

private theorem exists_member (h : Answers ps (occurrences config) cs) {c : Claim} (hc : c ∈ cs) :
    ∃ member ∈ membersOf config c.key, memberPosition? ps member = some c.position := by
  rw [← List.mem_map, ← map_some_claimedPositions h]
  exact List.mem_map_of_mem (mem_claimedPositions.mpr ⟨c, hc, rfl, rfl⟩)

private theorem position_lt (h : Answers ps (occurrences config) cs) {c : Claim} (hc : c ∈ cs) :
    c.position < ps.length := by
  obtain ⟨member, -, hmember⟩ := exists_member h hc
  exact memberPosition?_lt hmember

private theorem key_of_mem (h : Answers ps (occurrences config) cs) {c : Claim} (hc : c ∈ cs) :
    c.key ≠ defaultKey ∧ c.key ∈ config.sections.keys := by
  obtain ⟨member, hmember, -⟩ := exists_member h hc
  exact key_of_member hmember

private theorem nodup_positions (h : Answers ps (occurrences config) cs) (key : String) :
    (positions ps cs key).Nodup := by
  unfold positions
  split
  · exact List.nodup_range.filter _
  · exact h.distinct.sublist (List.filter_sublist.map _)

theorem disjoint_positions (h : Answers ps (occurrences config) cs) {key key' : String}
    (hne : key ≠ key') : (positions ps cs key).Disjoint (positions ps cs key') := by
  intro i hi hi'
  unfold positions at hi hi'
  split at hi <;> split at hi'
  · rename_i hkey hkey'
    exact hne (hkey.trans hkey'.symm)
  · obtain ⟨c, hc, -, hposition⟩ := mem_claimedPositions.mp hi'
    exact (mem_freePositions.mp hi).2 c hc hposition
  · obtain ⟨c, hc, -, hposition⟩ := mem_claimedPositions.mp hi
    exact (mem_freePositions.mp hi').2 c hc hposition
  · obtain ⟨c, hc, rfl, hposition⟩ := mem_claimedPositions.mp hi
    obtain ⟨c', hc', rfl, hposition'⟩ := mem_claimedPositions.mp hi'
    have hsame := List.inj_on_of_nodup_map h.distinct hc hc' (hposition.trans hposition'.symm)
    exact hne (congrArg Claim.key hsame)

theorem perm_positions (h : Answers ps (occurrences config) cs) {keys : List String}
    (hnodup : keys.Nodup)
    (hkeys : ∀ key, key ∈ keys ↔ key = defaultKey ∨ key ∈ config.sections.keys) :
    (keys.flatMap (positions ps cs)).Perm (List.range ps.length) := by
  have hnodup' : (keys.flatMap (positions ps cs)).Nodup :=
    List.nodup_flatMap.mpr ⟨fun key _ => nodup_positions h key,
      hnodup.imp fun hne => disjoint_positions h hne⟩
  refine (List.perm_ext_iff_of_nodup hnodup' List.nodup_range).mpr fun i => ?_
  rw [List.mem_flatMap, List.mem_range]
  constructor
  · intro hi
    obtain ⟨key, -, hi⟩ := hi
    unfold positions at hi
    split at hi
    · exact (mem_freePositions.mp hi).1
    · obtain ⟨c, hc, -, rfl⟩ := mem_claimedPositions.mp hi
      exact position_lt h hc
  · intro hi
    by_cases hclaimed : ∃ c ∈ cs, c.position = i
    · obtain ⟨c, hc, hposition⟩ := hclaimed
      obtain ⟨hdefault, hkey⟩ := key_of_mem h hc
      refine ⟨c.key, (hkeys c.key).mpr (.inr hkey), ?_⟩
      rw [positions, if_neg hdefault]
      exact mem_claimedPositions.mpr ⟨c, hc, rfl, hposition⟩
    · refine ⟨defaultKey, (hkeys defaultKey).mpr (.inl rfl), ?_⟩
      rw [positions, if_pos rfl]
      refine mem_freePositions.mpr ⟨hi, fun c hc hposition => hclaimed ⟨c, hc, hposition⟩⟩

/-! ## The packages of a section -/

private theorem map_some_claimedBy (h : Answers ps (occurrences config) cs) (key : String) :
    (claimedBy ps cs key).map some = (claimedPositions cs key).map (ps[·]?) := by
  have hall : ∀ c ∈ cs.filter (·.key = key), (ps[c.position]?).isSome = true := by
    intro c hc
    simpa using position_lt h (List.mem_of_mem_filter hc)
  rw [claimedBy, claimedPositions, List.map_map, List.map_filterMap]
  generalize cs.filter (·.key = key) = claimed at hall
  induction claimed with
  | nil => rfl
  | cons c claimed ih =>
    obtain ⟨hc, hclaimed⟩ := List.forall_mem_cons.mp hall
    obtain ⟨p, hp⟩ := Option.isSome_iff_exists.mp hc
    rw [List.filterMap_cons, List.map_cons, ih hclaimed, Function.comp_apply, hp]
    rfl

private theorem map_some_unclaimed (ps : List Package) (cs : List Claim) :
    (unclaimed ps cs).map some = (freePositions ps cs).map (ps[·]?) := by
  have hpositions : freePositions ps cs =
      (ps.zipIdx.filter fun p => cs.all (·.position ≠ p.2)).map (·.2) := by
    rw [freePositions, List.range_eq_range', ← List.zipIdx_map_snd, List.filter_map]
    congr 1
    refine List.filter_congr fun p _ => ?_
    rw [Bool.eq_iff_iff]
    simp
  rw [hpositions, unclaimed, List.map_map, List.map_map]
  refine List.map_congr_left fun p hp => ?_
  exact (List.mk_mem_zipIdx_iff_getElem?.mp (List.mem_of_mem_filter hp)).symm

end Assignment

open Assignment

theorem assign_eq_ok_iff {chapters : KeyMap Chapter} :
    assign config ps = .ok chapters ↔ ∃ cs, claims config ps = .ok cs ∧
      chapters = ((config.sections.filter fun key _ => key != defaultKey).map
        fun key s => chapter s (claimedBy ps cs key)).insert defaultKey
          (chapter ((config.sections.get? defaultKey).getD (Section.initial defaultKey))
            (unclaimed ps cs)) := by
  simp only [assign, bind_eq_ok_iff, pure_eq_ok_iff]
  simp only [eq_comm]

/-- Chapters that share out the packages of a list. `places` tells for each key at which positions
of the list the chapter's packages stand. -/
structure Partition (config : Configuration) (ps : List Package) (chapters : KeyMap Chapter)
    (places : String → List Nat) : Prop where
  keys : ∀ key, key ∈ chapters.keys ↔ key = defaultKey ∨ key ∈ config.sections.keys
  /-- Every position has its place in one chapter, once. -/
  positions : (chapters.keys.flatMap places).Perm (List.range ps.length)
  packages : ∀ key c, chapters.get? key = some c →
    c.packages.map some = (places key).map (ps[·]?)
  members : ∀ key s, config.sections.get? key = some s → key ≠ defaultKey →
    (places key).map some = s.members.map (memberPosition? ps)
  rest : places defaultKey = (List.range ps.length).filter fun i =>
    ∀ key ∈ config.sections.keys, key ≠ defaultKey → i ∉ places key
  /-- A chapter shows what is said of its section, and nothing where no default is described. -/
  header : ∀ key c, chapters.get? key = some c →
    let s := (config.sections.get? key).getD ⟨defaultKey, [], "", 0⟩
    c.name = s.name ∧ c.preamble = s.preamble ∧ c.weight = s.weight

variable {chapters : KeyMap Chapter}

section
variable {cs : List Claim} (h : chapters =
  ((config.sections.filter fun key _ => key != defaultKey).map
    fun key s => chapter s (claimedBy ps cs key)).insert defaultKey
      (chapter ((config.sections.get? defaultKey).getD (Section.initial defaultKey))
        (unclaimed ps cs)))
include h

private theorem get?_chapters (key : String) : chapters.get? key =
    if key = defaultKey then
      some (chapter ((config.sections.get? key).getD (Section.initial key)) (unclaimed ps cs))
    else (config.sections.get? key).map fun s => chapter s (claimedBy ps cs key) := by
  rw [h, KeyMap.get?_insert]
  split
  · rename_i hkey
    rw [hkey]
  · rename_i hkey
    rw [KeyMap.get?_map, KeyMap.get?_filter]
    cases config.sections.get? key with
    | none => rfl
    | some s => simp [Option.filter, hkey]

theorem mem_keys_chapters (key : String) :
    key ∈ chapters.keys ↔ key = defaultKey ∨ key ∈ config.sections.keys := by
  rw [KeyMap.mem_keys_iff, KeyMap.mem_keys_iff, get?_chapters h]
  split
  · rename_i hkey
    simp [hkey]
  · rename_i hkey
    simp [hkey]

theorem packages_of_get? (hanswers : Answers ps (occurrences config) cs) {key : String}
    {c : Chapter} (hc : chapters.get? key = some c) :
    c.packages.map some = (positions ps cs key).map (ps[·]?) := by
  rw [get?_chapters h] at hc
  split at hc
  · rename_i hkey
    cases hc
    rw [positions, if_pos hkey]
    exact map_some_unclaimed ps cs
  · rename_i hkey
    obtain ⟨s, -, rfl⟩ := Option.map_eq_some_iff.mp hc
    rw [positions, if_neg hkey]
    exact map_some_claimedBy hanswers key

private theorem header_of_get? {key : String} {c : Chapter} (hc : chapters.get? key = some c) :
    let s := (config.sections.get? key).getD ⟨defaultKey, [], "", 0⟩
    c.name = s.name ∧ c.preamble = s.preamble ∧ c.weight = s.weight := by
  rw [get?_chapters h] at hc
  split at hc
  · rename_i hkey
    cases hc
    rw [hkey]
    exact ⟨rfl, rfl, rfl⟩
  · obtain ⟨s, hs, rfl⟩ := Option.map_eq_some_iff.mp hc
    rw [hs]
    exact ⟨rfl, rfl, rfl⟩

end

/-- All chapters together hold the packages of the list, each as often as the list. -/
theorem perm_packages (h : assign config ps = .ok chapters) :
    (chapters.values.flatMap (·.packages)).Perm ps := by
  obtain ⟨cs, hcs, hchapters⟩ := assign_eq_ok_iff.mp h
  have hanswers := answers_claims hcs
  have hpositions := perm_positions hanswers chapters.nodup_keys (mem_keys_chapters hchapters)
  have hplaced : (chapters.values.flatMap (·.packages)).map some =
      (chapters.keys.flatMap (positions ps cs)).map (ps[·]?) := by
    rw [KeyMap.values, KeyMap.keys, List.flatMap_map, List.flatMap_map, List.map_flatMap,
      List.map_flatMap]
    refine List.flatMap_congr fun e he => ?_
    exact packages_of_get? hchapters hanswers (KeyMap.get?_eq_some_iff.mpr he)
  have hall : (List.range ps.length).map (ps[·]?) = ps.map some := by
    refine List.ext_getElem (by simp) fun i hi hi' => ?_
    simp
  have hperm := hpositions.map (ps[·]?)
  rw [hall, ← hplaced] at hperm
  exact (List.map_perm_map_iff fun _ _ => Option.some.inj).mp hperm

theorem freePositions_eq_filter {cs : List Claim} (h : Answers ps (occurrences config) cs) :
    freePositions ps cs = (List.range ps.length).filter fun i =>
      ∀ key ∈ config.sections.keys, key ≠ defaultKey → i ∉ positions ps cs key := by
  refine List.filter_congr fun i _ => ?_
  rw [decide_eq_decide, List.mem_map, not_exists]
  constructor
  · intro hfree key _ hkey hi
    rw [positions, if_neg hkey] at hi
    obtain ⟨c, hc, -, hposition⟩ := mem_claimedPositions.mp hi
    exact hfree c ⟨hc, hposition⟩
  · intro hnone c hc
    obtain ⟨hdefault, hkey⟩ := key_of_mem h hc.1
    refine hnone c.key hkey hdefault ?_
    rw [positions, if_neg hdefault]
    exact mem_claimedPositions.mpr ⟨c, hc.1, rfl, hc.2⟩

/-- Assigned packages are a partition: each position of the list stands in one chapter, the named
sections have the positions of their members, and the default section has the others. -/
theorem assign_partition (h : assign config ps = .ok chapters) :
    ∃ places, Partition config ps chapters places := by
  obtain ⟨cs, hcs, hchapters⟩ := assign_eq_ok_iff.mp h
  have hanswers := answers_claims hcs
  have hkeys := mem_keys_chapters hchapters
  refine ⟨positions ps cs, ?_⟩
  constructor
  case keys => exact hkeys
  case positions => exact perm_positions hanswers chapters.nodup_keys hkeys
  case packages => exact fun _ _ hc => packages_of_get? hchapters hanswers hc
  case members =>
    intro key s hs hkey
    rw [positions, if_neg hkey, map_some_claimedPositions hanswers, membersOf, if_neg hkey, hs,
      Option.map_some, Option.getD_some]
  case rest =>
    rw [positions, if_pos rfl]
    exact freePositions_eq_filter hanswers
  case header => exact fun _ _ hc => header_of_get? hchapters hc

/-- A package without content. -/
def Doc.Package.bare (id name : String) : Package :=
  { name, id, description := "", services := [], types := KeyMap.empty }

/-- Two sections, of which the later has a member that is matched by its display name only. -/
def teamsConfiguration : Configuration :=
  ⟨KeyMap.ofList [("accounts", ⟨"Accounts", ["users"], "about", 5⟩),
    ("money", ⟨"Money", ["Billing", "svc.users"], "", 1⟩)]⟩

/-- Four packages, three of them with one identifier and two of these equal. -/
def teamsPackages : List Package :=
  [.bare "svc.users" "Users", .bare "svc.billing" "Billing", .bare "users" "Users",
    .bare "svc.users" "Users"]

theorem assign_partition_teams :
    ∃ chapters, assign teamsConfiguration teamsPackages = .ok chapters ∧
      chapters.keys = ["accounts", "default", "money"] ∧
      ∃ places, Partition teamsConfiguration teamsPackages chapters places ∧
        places "accounts" = [2] ∧ places "money" = [1, 0] ∧ places "default" = [3] := by
  obtain ⟨chapters, hchapters, hkeys⟩ : ∃ chapters,
      assign teamsConfiguration teamsPackages = .ok chapters ∧
        chapters.keys = ["accounts", "default", "money"] := ⟨_, rfl, rfl⟩
  obtain ⟨places, hplaces⟩ := assign_partition hchapters
  have hsome {l r : List Nat} (h : l.map some = r.map some) : l = r :=
    (List.map_inj_right fun _ _ => Option.some.inj).mp h
  have haccounts : places "accounts" = [2] :=
    hsome (hplaces.members "accounts" _ rfl (by decide))
  have hmoney : places "money" = [1, 0] :=
    hsome (hplaces.members "money" _ rfl (by decide))
  have hnamed : teamsConfiguration.sections.keys = ["accounts", "money"] := rfl
  refine ⟨chapters, hchapters, hkeys, places, hplaces, haccounts, hmoney, ?_⟩
  have hrest := hplaces.rest
  simp only [hnamed, List.forall_mem_cons, haccounts, hmoney] at hrest
  exact hrest

end SchemaDocs
