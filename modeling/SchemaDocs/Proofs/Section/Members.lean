import SchemaDocs.Proofs.Files.Path
import SchemaDocs.Proofs.Section.Entry
import SchemaDocs.Proofs.Toml.Statement

/-!
# Members of a section

A section's members stand in one text, between commas and white space; pieces of white space alone
name nothing. What is read is exactly the list of members, and every member that a section holds is
a name that can be told apart from its surroundings. Main statement: `fromText_members`.
-/

namespace SchemaDocs

namespace Section

open Text (Blank Trimmed trim)

/-! ## Lists of members -/

/-- A name that neither a comma nor white space at an end belongs to. -/
structure IsMember (member : List Char) : Prop where
  ne_nil : member ≠ []
  no_comma : ',' ∉ member
  trimmed : Trimmed member

/-- The pieces of a text and the members that they name. -/
inductive Lists : List (List Char) → List (List Char) → Prop
  | nil : Lists [] []
  | blank {piece : List Char} {pieces members : List (List Char)} :
      Blank piece → Lists pieces members → Lists (piece :: pieces) members
  | member {before member after : List Char} {pieces members : List (List Char)} :
      Blank before → IsMember member → Blank after → Lists pieces members →
      Lists ((before ++ member ++ after) :: pieces) (member :: members)

/-- A text in which members are listed between commas. -/
def HoldsMembers (text : String) (members : List String) : Prop :=
  ∃ pieces, text.toList = [','].intercalate pieces ∧ Lists pieces (members.map String.toList)

variable {pieces members : List (List Char)} {text : String}

private theorem comma_not_mem_of_blank {s : List Char} (hs : Blank s) : ',' ∉ s := fun h =>
  absurd (hs ',' h) (by decide)

private theorem Lists.comma_not_mem (h : Lists pieces members) : ∀ piece ∈ pieces, ',' ∉ piece := by
  induction h with
  | nil => simp
  | blank hpiece _ ih => exact List.forall_mem_cons.mpr ⟨comma_not_mem_of_blank hpiece, ih⟩
  | member hbefore hmember hafter _ ih =>
    refine List.forall_mem_cons.mpr ⟨?_, ih⟩
    simp [comma_not_mem_of_blank hbefore, hmember.no_comma, comma_not_mem_of_blank hafter]

private theorem trim_of_blank {s : List Char} (hs : Blank s) : trim s = [] :=
  Text.trim_eq_iff.mpr ⟨by simp [Trimmed], s, [], hs, Text.blank_nil, by simp⟩

private theorem Lists.filter_trim (h : Lists pieces members) :
    (pieces.map trim).filter (· ≠ []) = members := by
  induction h with
  | nil => rfl
  | blank hpiece _ ih => simpa [trim_of_blank hpiece] using ih
  | @member before member after _ _ hbefore hmember hafter _ ih =>
    have htrim : trim (before ++ member ++ after) = member :=
      Text.trim_eq_iff.mpr ⟨hmember.trimmed, before, after, hbefore, hafter, rfl⟩
    rw [List.map_cons, htrim, List.filter_cons_of_pos (by simpa using hmember.ne_nil), ih]

private theorem lists_filter_trim (h : ∀ piece ∈ pieces, ',' ∉ piece) :
    Lists pieces ((pieces.map trim).filter (· ≠ [])) := by
  induction pieces with
  | nil => exact .nil
  | cons piece pieces ih =>
    obtain ⟨hpiece, hpieces⟩ := List.forall_mem_cons.mp h
    obtain ⟨htrimmed, before, after, hbefore, hafter, hsplit⟩ :=
      Text.trim_eq_iff.mp (Eq.refl (trim piece))
    by_cases hempty : trim piece = []
    · rw [hempty, List.append_nil] at hsplit
      have hblank : Blank piece := by
        rw [hsplit]
        exact List.forall_mem_append.mpr ⟨hbefore, hafter⟩
      rw [List.map_cons, List.filter_cons_of_neg (by simpa using hempty)]
      exact .blank hblank (ih hpieces)
    · have hcomma : ',' ∉ trim piece := fun hmem => hpiece (hsplit ▸ by simp [hmem])
      rw [List.map_cons, List.filter_cons_of_pos (by simpa using hempty)]
      have hlists := Lists.member hbefore ⟨hempty, hcomma, htrimmed⟩ hafter (ih hpieces)
      rwa [← hsplit] at hlists

private theorem map_toList_splitMembers (text : String) : (splitMembers text).map String.toList =
    ((text.toList.splitOn ',').map trim).filter (· ≠ []) := by
  rw [splitMembers, List.map_map]
  exact List.map_id'' (fun _ => String.toList_ofList) _

/-- A text is split into the members that it lists. -/
theorem splitMembers_eq_iff {members : List String} :
    splitMembers text = members ↔ HoldsMembers text members := by
  constructor
  · rintro rfl
    refine ⟨text.toList.splitOn ',', (List.intercalate_splitOn ',').symm, ?_⟩
    rw [map_toList_splitMembers]
    exact lists_filter_trim fun piece hpiece => Path.not_mem_of_mem_splitOn hpiece
  · rintro ⟨pieces, htext, hlists⟩
    have hmap : (splitMembers text).map String.toList = members.map String.toList := by
      rw [map_toList_splitMembers, htext]
      cases hpieces : pieces with
      | nil =>
        rw [hpieces] at hlists
        generalize members.map String.toList = names at hlists ⊢
        cases hlists
        rfl
      | cons piece rest =>
        rw [← hpieces, List.splitOn_intercalate ',' hlists.comma_not_mem (by simp [hpieces])]
        exact hlists.filter_trim
    exact List.map_injective_iff.mpr (fun _ _ => String.toList_inj.mp) hmap

private theorem Lists.isMember (h : Lists pieces members) :
    ∀ member ∈ members, IsMember member := by
  induction h with
  | nil => simp
  | blank _ _ ih => exact ih
  | member _ hmember _ _ ih => exact List.forall_mem_cons.mpr ⟨hmember, ih⟩

private theorem isMember_of_mem_splitMembers {member : String} (h : member ∈ splitMembers text) :
    IsMember member.toList := by
  obtain ⟨pieces, -, hlists⟩ := splitMembers_eq_iff.mp (Eq.refl (splitMembers text))
  exact hlists.isMember _ (List.mem_map_of_mem h)

end Section

namespace Configuration

open Section

/-! ## Configurations -/

variable {dir text key : String} {m m' : Memory} {config : Configuration}

private theorem run_eq_ok_iff : (fromText dir text : StateM Memory _).run m = (.ok config, m') ↔
    m' = m ∧ ∃ table, Configuration.table text = .ok table ∧
      ofTable m.textAt dir table = .ok config := by
  rw [run_fromText, Prod.mk.injEq, ofText, bind_eq_ok_iff, and_comm, eq_comm (a := m)]

section

variable {texts : String → Except FileError String} {table : KeyMap Toml.Value} {s : Section}

private theorem members_default (h : ofTable texts dir table = .ok config)
    (hs : config.sections.get? defaultKey = some s) : s.members = [] := by
  obtain ⟨v, -, hv⟩ := exists_value_of_ofTable h hs
  obtain ⟨entries, rfl, hpackages, hnone⟩ := members_of_ofValue hv
  cases hget : (KeyMap.ofList entries).get? "packages" with
  | none => exact hnone hget
  | some w => exact absurd rfl (hpackages w hget).1

private theorem isMember_of_ofTable (h : ofTable texts dir table = .ok config)
    (hs : config.sections.get? key = some s) : ∀ member ∈ s.members, IsMember member.toList := by
  obtain ⟨v, -, hv⟩ := exists_value_of_ofTable h hs
  obtain ⟨entries, rfl, hpackages, hnone⟩ := members_of_ofValue hv
  intro member hmember
  cases hget : (KeyMap.ofList entries).get? "packages" with
  | none => simp [hnone hget] at hmember
  | some w =>
    obtain ⟨-, text, -, hmembers⟩ := hpackages w hget
    exact isMember_of_mem_splitMembers (hmembers ▸ hmember)

private theorem members_of_packages (h : ofTable texts dir table = .ok config)
    {entries : List (String × Toml.Value)} {packages : String} {members : List String}
    (hv : table.get? key = some (.table entries))
    (hpackages : (KeyMap.ofList entries).get? "packages" = some (.string packages))
    (hmembers : HoldsMembers packages members) :
    ∃ s, config.sections.get? key = some s ∧ s.members = members := by
  obtain ⟨s, hs, hget⟩ := exists_section_of_ofTable h hv
  obtain ⟨_, hentries, hread, -⟩ := members_of_ofValue hs
  cases hentries
  obtain ⟨-, text, htext, hsplit⟩ := hread _ hpackages
  cases htext
  exact ⟨s, hget, hsplit.trans (splitMembers_eq_iff.mpr hmembers)⟩

end

/-- A configuration of one section, of which only the packages are stated. -/
def packagesText (key packages : String) : String :=
  String.ofList (Toml.statement key "packages" packages)

private theorem ofText_packagesText {texts : String → Except FileError String} {packages : String}
    (hplain : PlainName key) (hkey : key ≠ defaultKey) :
    ofText texts dir (packagesText key packages) =
      .ok ⟨KeyMap.ofList [(key, ⟨key, splitMembers packages, "", 0⟩)]⟩ := by
  have hbare : Toml.IsBare "packages".toList := ⟨by decide, by decide⟩
  have htable : Configuration.table (packagesText key packages) =
      .ok (KeyMap.ofList [(key, .table [("packages", .string packages)])]) := by
    rw [Configuration.table, packagesText, String.toList_ofList,
      Toml.parse?_statement key packages hbare]
  have hentry : addEntry texts dir key (initial key) "packages" (.string packages) =
      .ok ⟨key, splitMembers packages, "", 0⟩ := if_neg hkey
  have hvalue : ofValue texts dir key (.table [("packages", .string packages)]) =
      .ok ⟨key, splitMembers packages, "", 0⟩ := by
    have hentries : (KeyMap.ofList [("packages", Toml.Value.string packages)]).entries =
        [("packages", .string packages)] := rfl
    simp only [ofValue, canNameFile_iff.mpr hplain, hentries, List.foldlM_cons, hentry]
    rfl
  have hentries :
      (KeyMap.ofList [(key, Toml.Value.table [("packages", .string packages)])]).entries =
        [(key, .table [("packages", .string packages)])] := rfl
  rw [ofText, htable]
  simp only [ofTable, bind, Except.bind, hentries, List.foldlM_cons, hvalue]
  rfl

/-- The members of a configuration that was read: none in the default section, and elsewhere names
between commas and white space. Whatever the white space and the empty pieces around them, the
members that a section's text lists are read as they are and in their order. -/
theorem fromText_members (dir : String) (m : Memory) :
    (∀ text config m', (fromText dir text : StateM Memory _).run m = (.ok config, m') →
      (∀ s, config.sections.get? defaultKey = some s → s.members = []) ∧
      (∀ key s, config.sections.get? key = some s →
        ∀ member ∈ s.members, IsMember member.toList) ∧
      ∃ table, Configuration.table text = .ok table ∧
        ∀ key entries packages members, table.get? key = some (.table entries) →
          (KeyMap.ofList entries).get? "packages" = some (.string packages) →
          HoldsMembers packages members →
          ∃ s, config.sections.get? key = some s ∧ s.members = members) ∧
    ∀ key packages members, PlainName key → key ≠ defaultKey → HoldsMembers packages members →
      (fromText dir (packagesText key packages) : StateM Memory _).run m =
        (.ok ⟨KeyMap.ofList [(key, ⟨key, members, "", 0⟩)]⟩, m) := by
  constructor
  · intro text config m' hrun
    obtain ⟨-, table, htable, hconfig⟩ := run_eq_ok_iff.mp hrun
    exact ⟨fun s => members_default hconfig, fun key s => isMember_of_ofTable hconfig, table,
      htable, fun key entries packages members => members_of_packages hconfig⟩
  · intro key packages members hplain hkey hmembers
    rw [run_fromText, ofText_packagesText hplain hkey, splitMembers_eq_iff.mpr hmembers]

end Configuration

end SchemaDocs
