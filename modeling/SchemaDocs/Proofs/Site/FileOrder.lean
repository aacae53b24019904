import SchemaDocs.Proofs.Documentable
import SchemaDocs.Proofs.Site.Publication

/-!
# The order of files

Files with names of their own may come in any order, as long as no full name is declared twice. The
index answers every question alike, and conversion takes the files by name, so packages, pages and
files are the same. Only which of several clashes of names is reported depends on the order. Main
statement: `Site.generate_perm`.
-/

namespace SchemaDocs

open Doc (Package)
open Schema (Index File)

/-! ## Indices that answer alike -/

/-- Indices of equal size that find the same under every full name. -/
structure Schema.Index.Agrees (ix ix' : Index) : Prop where
  find? : ∀ fullName, ix.find? fullName = ix'.find? fullName
  length : ix.declared.length = ix'.declared.length

namespace Schema.Index.Agrees
variable {ix ix' : Index}

private theorem message? (h : ix.Agrees ix') : ix.message? = ix'.message? := by
  funext fullName
  rw [Index.message?, Index.message?, h.find?]

private theorem flatName (h : ix.Agrees ix') : ix.flatName = ix'.flatName := by
  funext fullName
  rw [Index.flatName, Index.flatName, h.find?]

private theorem messageUse (h : ix.Agrees ix') :
    Conversion.messageUse ix = Conversion.messageUse ix' := by
  funext fullName
  rw [Conversion.messageUse, Conversion.messageUse, h.flatName]

private theorem elementType (h : ix.Agrees ix') :
    Conversion.elementType ix = Conversion.elementType ix' := by
  funext f
  rw [Conversion.elementType, Conversion.elementType, h.flatName, h.messageUse]

private theorem entry? (h : ix.Agrees ix') : ix.entry? = ix'.entry? := by
  funext fullName
  rw [Index.entry?, Index.entry?, h.message?]

private theorem typeWithin (h : ix.Agrees ix') (depth : Nat) :
    Conversion.typeWithin ix depth = Conversion.typeWithin ix' depth := by
  have hplain (depth : Nat) (f : Schema.Field) (hmap : f.isMap = false) :
      Conversion.typeWithin ix depth f = Conversion.typeWithin ix' depth f := by
    unfold Conversion.typeWithin
    rw [if_neg (by simp [hmap]), if_neg (by simp [hmap]), h.elementType]
  induction depth with
  | zero =>
    funext f
    cases hmap : f.isMap with
    | false => exact hplain 0 f hmap
    | true => rw [Conversion.typeWithin_zero hmap, Conversion.typeWithin_zero hmap]
  | succ depth ih =>
    funext f
    cases hmap : f.isMap with
    | false => exact hplain (depth + 1) f hmap
    | true => rw [Conversion.typeWithin_succ hmap, Conversion.typeWithin_succ hmap, h.entry?, ih]

private theorem typeOf (h : ix.Agrees ix') : Conversion.typeOf ix = Conversion.typeOf ix' := by
  funext f
  rw [Conversion.typeOf, Conversion.typeOf, h.length, h.typeWithin]

private theorem field (h : ix.Agrees ix') : Conversion.field ix = Conversion.field ix' := by
  funext f
  rw [Conversion.field, Conversion.field, h.typeOf]

private theorem declaration (h : ix.Agrees ix') :
    Conversion.declaration ix = Conversion.declaration ix' := by
  funext d
  cases d with
  | enum e => rfl
  | message m => rw [Conversion.declaration, Conversion.declaration, h.field]

private theorem endpoint? (h : ix.Agrees ix') :
    Conversion.endpoint? ix = Conversion.endpoint? ix' := by
  funext service m
  have hbody : Conversion.bodyName ix = Conversion.bodyName ix' := by
    funext input body method
    rw [Conversion.bodyName, Conversion.bodyName, h.message?]
  rw [Conversion.endpoint?, Conversion.endpoint?, hbody, h.messageUse]

private theorem package (h : ix.Agrees ix') : Conversion.package ix = Conversion.package ix' := by
  have hservice : Conversion.service ix = Conversion.service ix' := by
    funext s
    rw [Conversion.service, Conversion.service, h.endpoint?]
  funext f
  rw [Conversion.package, Conversion.package, Conversion.typesOf, Conversion.typesOf,
    h.declaration, hservice]

end Schema.Index.Agrees

/-! ## Files in another order -/

namespace Schema
variable {s s' : Schema}

private theorem declared_perm (h : s.files.Perm s'.files) : s.declared.Perm s'.declared :=
  h.flatMap_right _

/-- Where full names are distinct, an index does not depend on the order of declarations. -/
theorem index_agrees (h : s.files.Perm s'.files)
    (hdeclared : (s.declared.map (·.declaration.fullName)).Nodup) : s.index.Agrees s'.index := by
  have hperm := declared_perm h
  have hdeclared' : (s'.declared.map (·.declaration.fullName)).Nodup :=
    (hperm.map _).nodup_iff.mp hdeclared
  constructor
  case length => exact hperm.length_eq
  case find? =>
    intro fullName
    cases hfind : s.index.find? fullName with
    | none =>
      rw [eq_comm, Index.find?_eq_none_iff]
      exact fun x hx => Index.find?_eq_none_iff.mp hfind x (hperm.mem_iff.mpr hx)
    | some x =>
      obtain ⟨hx, rfl⟩ := Index.mem_of_find? hfind
      exact (find?_of_mem hdeclared' (hperm.mem_iff.mp hx)).symm

private theorem clash?_eq_none_perm (h : s.files.Perm s'.files) :
    s.clash? = none ↔ s'.clash? = none := by
  rw [clash?, clash?, firstRepeat?_eq_none_iff, firstRepeat?_eq_none_iff,
    ((declared_perm h).filterMap _).nodup_iff]
  simp

private theorem ordered_perm (h : s.files.Perm s'.files) (hnames : (s.files.map (·.name)).Nodup) :
    s.ordered = s'.ordered := by
  have hs := inNameOrder_ordered s
  have hs' := inNameOrder_ordered s'
  refine List.Perm.eq_of_pairwise (fun f g hf hg hfg hgf => ?_) hs.sorted hs'.sorted
    (hs.perm.trans (h.trans hs'.perm.symm))
  exact List.inj_on_of_nodup_map hnames (mem_ordered.mp hf) (h.mem_iff.mpr (mem_ordered.mp hg))
    (String.le_antisymm hfg hgf)

/-- Files in another order, with names and full names that are distinct. -/
structure Reordered (s s' : Schema) : Prop where
  perm : s.files.Perm s'.files
  names : (s.files.map (·.name)).Nodup
  fullNames : (s.declared.map (·.declaration.fullName)).Nodup

namespace Reordered

/-- The packages are the same, unless some name is taken in either order. -/
theorem packages (h : s.Reordered s') : s.packages = s'.packages ∨ ∃ package name package' name',
    s.packages = .error (.duplicateType package name) ∧
      s'.packages = .error (.duplicateType package' name') := by
  have hclash := clash?_eq_none_perm h.perm
  rw [Schema.packages, Schema.packages, index?, index?]
  cases hs : s.clash? with
  | none =>
    rw [hclash.mp hs]
    refine .inl ?_
    dsimp only
    rw [ordered_perm h.perm h.names]
    exact congrArg (s'.ordered.mapM ·) (index_agrees h.perm h.fullNames).package
  | some taken =>
    have hsome : s'.clash? ≠ none := by
      intro hnone
      rw [hclash.mpr hnone] at hs
      cases hs
    obtain ⟨taken', hs'⟩ := Option.ne_none_iff_exists'.mp hsome
    rw [hs']
    exact .inr ⟨taken.1, taken.2, taken'.1, taken'.2, rfl, rfl⟩

private theorem chapters (h : s.Reordered s') (config : Configuration) :
    Site.chapters s config = Site.chapters s' config ∨ ∃ package name package' name',
      Site.chapters s config = .error (.conversion (.duplicateType package name)) ∧
        Site.chapters s' config = .error (.conversion (.duplicateType package' name')) := by
  rw [Site.chapters, Site.chapters, ordered_perm h.perm h.names]
  rcases h.packages with hsame | ⟨package, name, package', name', hs, hs'⟩
  · exact .inl (by rw [hsame])
  · rw [hs, hs']
    exact .inr ⟨package, name, package', name', rfl, rfl⟩

end Reordered
end Schema

namespace Site
variable {s s' : Schema}

/-- The order of the files makes no difference to packages and written files, or to the error,
unless some name is taken. -/
theorem generate_perm (h : s.Reordered s') :
    (s.packages = s'.packages ∨ ∃ package name package' name',
      s.packages = .error (.duplicateType package name) ∧
        s'.packages = .error (.duplicateType package' name')) ∧
    ∀ input input', Reads input s → Reads input' s' → ∀ config dir m,
      (generate input config dir : StateM Memory _).run m =
          (generate input' config dir : StateM Memory _).run m ∨
        ∃ package name package' name',
          (generate input config dir : StateM Memory _).run m =
            (.error (.conversion (.duplicateType package name)), m) ∧
          (generate input' config dir : StateM Memory _).run m =
            (.error (.conversion (.duplicateType package' name')), m) := by
  refine ⟨h.packages, fun input input' hreads hreads' config dir m => ?_⟩
  rw [run_generate, run_generate, hreads.chaptersOf_eq, hreads'.chaptersOf_eq]
  rcases h.chapters config with hsame | ⟨package, name, package', name', hs, hs'⟩
  · exact .inl (by rw [hsame])
  · rw [hs, hs']
    exact .inr ⟨package, name, package', name', rfl, rfl⟩

/-- The schema with orders, with its files in the other order. -/
def deskSchemaReversed : Schema := ⟨deskSchema.files.reverse⟩

theorem generate_perm_desk :
    let reversedInput := .ok (prettyText deskSchemaReversed.toJson).toUTF8
    deskSchema.Reordered deskSchemaReversed ∧ deskSchemaReversed.packages = .ok deskPackages ∧
      ∃ m', (generate deskInput salesConfiguration "out" : StateM Memory _).run .empty =
          (.ok ["out/default.json", "out/sales.json"], m') ∧
        (generate reversedInput salesConfiguration "out" : StateM Memory _).run .empty =
          (.ok ["out/default.json", "out/sales.json"], m') := by
  intro reversedInput
  have hreordered : deskSchema.Reordered deskSchemaReversed := by
    constructor
    case perm => exact (List.reverse_perm _).symm
    case names => decide
    case fullNames => decide
  have hreads : Reads deskInput deskSchema := reads_toJson (by decide)
  have hreads' : Reads reversedInput deskSchemaReversed := reads_toJson (by decide)
  obtain ⟨m', hrun⟩ := run_generate_desk
  obtain ⟨hpackages, hruns⟩ := generate_perm hreordered
  refine ⟨hreordered, ?_, m', hrun, ?_⟩
  · rcases hpackages with hsame | ⟨_, _, _, _, htaken, -⟩
    · rw [← hsame, packages_deskSchema]
    · rw [packages_deskSchema] at htaken
      cases htaken
  · rcases hruns _ _ hreads hreads' salesConfiguration "out" .empty with
      hsame | ⟨_, _, _, _, htaken, -⟩
    · rw [← hsame, hrun]
    · rw [hrun] at htaken
      cases htaken

end Site
end SchemaDocs
