import SchemaDocs.Proofs.Site.Output

/-!
# Published packages

A site holds one page for every file that is marked for generation, and no other. What a page shows
is settled by the whole schema: a type stays when an endpoint of any file reaches it, and which
files are marked makes no difference to the page of one of them. Main statement:
`generate_publication`.
-/

namespace SchemaDocs

open Doc (Package Chapter)

namespace Schema

variable {s s' : Schema}

/-- The file without its mark. -/
def File.unmarked (f : File) : File := { f with generate := false }

/-- Schemas that differ at most in the marks of their files. -/
def SameButMarks (s s' : Schema) : Prop := s'.files.map File.unmarked = s.files.map File.unmarked

private theorem declared_eq_unmarked (s : Schema) : s.declared =
    (s.files.map File.unmarked).flatMap fun f => f.declarations.map (⟨f.package, ·⟩) := by
  rw [List.flatMap_map]
  rfl

private theorem SameButMarks.index (h : SameButMarks s s') : s'.index = s.index := by
  rw [Schema.index, Schema.index, declared_eq_unmarked, declared_eq_unmarked, h]

private theorem ordered_eq_unmarked (s : Schema) : s.ordered.map File.unmarked =
    (s.files.map File.unmarked).mergeSort fun a b => a.name ≤ b.name :=
  List.map_mergeSort fun _ _ _ _ => rfl

private theorem SameButMarks.packages (h : SameButMarks s s') : s'.packages = s.packages := by
  have hconvert (s : Schema) : s.packages = s.index? >>= fun ix =>
      (s.ordered.map File.unmarked).mapM (Conversion.package ix) := by
    simp only [List.mapM_map]
    rfl
  have hindex : s'.index? = s.index? := by
    rw [index?, index?, clash?, clash?, h.index, declared_eq_unmarked, declared_eq_unmarked, h]
  rw [hconvert, hconvert, hindex, ordered_eq_unmarked, ordered_eq_unmarked, h]

end Schema

namespace Site

variable {s : Schema} {config : Configuration} {chapters : KeyMap Chapter} {ps : List Package}
  {used : NameSet} {m m' : Memory} {dir : String} {paths : List String}
  {input : Except FileError ByteArray}

/-- The page of a file: its conversion with the entries that are used. -/
def page (ix : Schema.Index) (used : NameSet) (f : Schema.File) : Package :=
  match Conversion.package ix f with
  | .ok p => p.restrict used
  | .error _ => .bare "" ""

private theorem page_of_ok {ix : Schema.Index} {f : Schema.File} {p : Package}
    (h : Conversion.package ix f = .ok p) : page ix used f = p.restrict used := by
  rw [page, h]

private theorem selected_restrict {ix : Schema.Index} {fs : List Schema.File}
    (h : fs.mapM (Conversion.package ix) = .ok ps) :
    selected fs (ps.map (·.restrict used)) = (fs.filter (·.generate)).map (page ix used) := by
  have haligned := mapM_eq_ok_iff.mp h
  clear h
  induction haligned with
  | nil => rfl
  | @cons f p fs ps hp _ ih =>
    rw [selected] at ih ⊢
    rw [List.map_cons, List.zip_cons_cons, List.filterMap_cons, List.filter_cons]
    by_cases hmark : f.generate = true
    · simp [hmark, ih, page_of_ok hp]
    · simpa [hmark] using ih

private theorem perm_chapters (hs : s.packages = .ok ps) (hused : reachable ps = .ok used)
    (h : Site.chapters s config = .ok chapters) :
    (chapters.values.flatMap (·.packages)).Perm
      ((s.files.filter (·.generate)).map (page s.index used)) := by
  obtain ⟨ps', pruned, used', hs', hprune, hassign⟩ := chapters_eq_ok_iff.mp h
  rw [hs] at hs'
  cases hs'
  obtain ⟨-, hused', rfl⟩ := prune_eq_ok_iff.mp hprune
  rw [hused] at hused'
  cases hused'
  rw [selected_restrict (Schema.packages_eq_ok_iff.mp hs).2] at hassign
  have hordered : s.ordered.Perm s.files := List.mergeSort_perm _ _
  exact (perm_packages hassign).trans ((hordered.filter _).map _)

/-- What the pages of a schema show, file by file, whatever files are marked. -/
structure Pages (s : Schema) (page : Schema.File → Package) : Prop where
  /-- The conversion of the file, with the entries that endpoints reach in the whole schema. -/
  kept : ∃ ps pruned used, s.packages = .ok ps ∧ prune ps = .ok (pruned, used) ∧
    IsLeast {U | Closed ps U} {n | used.contains n = true} ∧
    ∀ f ∈ s.files, ∃ p, Conversion.package s.index f = .ok p ∧ Kept used p (page f)
  unmarked : ∀ f g : Schema.File, f.unmarked = g.unmarked → page f = page g
  /-- The chapters hold the page of every marked file once, and no more. -/
  once : ∀ s' config chapters, s.SameButMarks s' → Site.chapters s' config = .ok chapters →
    (chapters.values.flatMap (·.packages)).Perm ((s'.files.filter (·.generate)).map page)

private theorem pages_of_chapters (h : Site.chapters s config = .ok chapters) :
    ∃ page, Pages s page := by
  obtain ⟨ps, pruned, used, hs, hprune, -⟩ := chapters_eq_ok_iff.mp h
  obtain ⟨-, hused, -⟩ := prune_eq_ok_iff.mp hprune
  refine ⟨page s.index used, ?_⟩
  constructor
  case kept =>
    refine ⟨ps, pruned, used, hs, hprune, reachable_isLeast hused, fun f hf => ?_⟩
    obtain ⟨i, hi⟩ := List.getElem?_of_mem (Schema.mem_ordered.mpr hf)
    obtain ⟨p, -, hp⟩ := getElem?_of_mapM (Schema.packages_eq_ok_iff.mp hs).2 hi
    exact ⟨p, hp, page_of_ok hp ▸ kept_restrict used p⟩
  case unmarked =>
    intro f g hfg
    have hconvert (f : Schema.File) : Conversion.package s.index f.unmarked =
        Conversion.package s.index f := rfl
    rw [page, page, ← hconvert f, ← hconvert g, hfg]
  case once =>
    intro s' config chapters hmarks hchapters
    rw [← hmarks.index]
    exact perm_chapters (hmarks.packages.trans hs) hused hchapters

/-- A run that succeeds publishes the page of every marked file once, and nothing else, and marking
other files changes no page. -/
theorem generate_publication (h : (generate input config dir : StateM Memory _).run m =
      (.ok paths, m')) :
    ∃ s chapters page, Reads input s ∧ Site.chapters s config = .ok chapters ∧ Pages s page ∧
      (chapters.values.flatMap (·.packages)).Perm ((s.files.filter (·.generate)).map page) ∧
      paths = chapters.keys.map (filePath dir) ∧
      (config.Loaded → ∃ d, Leaves dir d chapters.entries m m') := by
  obtain ⟨chapters, m₁, hof, hdirs, hwritten, hpaths⟩ := run_generate_eq_ok_iff.mp h
  obtain ⟨s, hreads, hchapters⟩ := chaptersOf_eq_ok_iff.mp hof
  obtain ⟨page, hpages⟩ := pages_of_chapters hchapters
  have honce := hpages.once s config chapters rfl hchapters
  exact ⟨s, chapters, page, hreads, hchapters, hpages, honce, hpaths, fun hconfig =>
    hwritten.exists_leaves_of_loaded hconfig hof (List.Sublist.refl _) hdirs⟩

/-- Orders that only the service of another file asks for, which is not marked. -/
def deskSchema : Schema :=
  ⟨[Schema.orderFile "shop.Order.Line",
    { Schema.File.holding "desk.proto" "desk" (.plain "Desk" "desk.Desk") with
      services := [⟨"Orders", "", [⟨"Find", "", "shop.Order", "google.protobuf.Empty", false, false,
        some ⟨some (.get "/orders"), none⟩⟩]⟩]
      generate := false }]⟩

def deskPackages : List Package :=
  [{ name := "desk", id := "desk", description := "",
     services := [⟨"Orders", "", [⟨"Find", "", "GET", "/orders", none, .ref "shop.Order",
       .basic "Empty" "", false, false⟩]⟩],
     types := KeyMap.ofList [("Desk", .message "Desk" "" [])] },
    { name := "shop", id := "shop", description := "", services := [],
      types := KeyMap.ofList
        [("Line", .message "Line" "" []),
          ("Order", .message "Order" "" [.mk "line" "" (.ref "shop.Line")])] }]

private theorem ordered_deskSchema : deskSchema.ordered = deskSchema.files.reverse := by
  simp [Schema.ordered, deskSchema, Schema.orderFile, Schema.File.holding, List.mergeSort]

theorem packages_deskSchema : deskSchema.packages = .ok deskPackages := by
  rw [Schema.packages_eq_ok_iff, ordered_deskSchema]
  exact ⟨rfl, by cbv⟩

private theorem prune_deskPackages : prune deskPackages =
    .ok (deskPackages.map (·.restrict Schema.servedNames), Schema.servedNames) := by
  have hreachable : reachable deskPackages = .ok Schema.servedNames :=
    Schema.reachable_of_orders rfl (by cbv) (by cbv)
  exact prune_eq_ok_iff.mpr ⟨by cbv, hreachable, rfl⟩

def deskInput : Except FileError ByteArray := .ok (prettyText deskSchema.toJson).toUTF8

/-- The page with the orders is the only one, with both of its types. -/
def deskChapters : KeyMap Chapter :=
  KeyMap.ofList [("default", ⟨"default", "", 0, []⟩),
    ("sales", ⟨"Sales", "", 3, [deskPackages[1]]⟩)]

private theorem chaptersOf_deskInput :
    chaptersOf deskInput salesConfiguration = .ok deskChapters := by
  have hreads : Reads deskInput deskSchema := reads_toJson (by decide)
  refine chaptersOf_eq_ok_iff.mpr ⟨_, hreads, chapters_eq_ok_iff.mpr
    ⟨_, _, _, packages_deskSchema, prune_deskPackages, ?_⟩⟩
  rw [ordered_deskSchema]
  rfl

theorem run_generate_desk : ∃ m', (generate deskInput salesConfiguration "out" :
    StateM Memory _).run .empty = (.ok ["out/default.json", "out/sales.json"], m') :=
  ⟨_, run_generate_eq_ok_iff.mpr ⟨deskChapters, _, chaptersOf_deskInput, rfl,
    .cons rfl (.cons rfl .nil), rfl⟩⟩

theorem generate_publication_desk : ∃ m' s page,
    (generate deskInput salesConfiguration "out" : StateM Memory _).run .empty =
      (.ok ["out/default.json", "out/sales.json"], m') ∧
    Reads deskInput s ∧ Site.chapters s salesConfiguration = .ok deskChapters ∧ Pages s page ∧
    [deskPackages[1]].Perm ((s.files.filter (·.generate)).map page) := by
  obtain ⟨m', hrun⟩ := run_generate_desk
  obtain ⟨s, chapters, page, hreads, hchapters, hpages, honce, -⟩ := generate_publication hrun
  have hsame : chapters = deskChapters := by
    have hof := chaptersOf_eq_ok_iff.mpr ⟨s, hreads, hchapters⟩
    rw [chaptersOf_deskInput] at hof
    exact (Except.ok.inj hof).symm
  subst hsame
  exact ⟨m', s, page, hrun, hreads, hchapters, hpages, honce⟩

end Site
end SchemaDocs
