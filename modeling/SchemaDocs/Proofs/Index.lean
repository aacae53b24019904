import Mathlib.Data.List.Flatten
import Mathlib.Data.List.Nodup
import SchemaDocs.Schema.Index

/-!
# Declarations and their names

In a schema without clashes a documented declaration is known by its package and its own name,
whatever message encloses it; and in one with distinct full names, by its full name.
-/

namespace SchemaDocs.Schema

mutual

private theorem sublist_documented : ∀ m : Message, m.documented.Sublist m.declarations
  | ⟨name, fullName, description, fields, messages, enums, isMapEntry⟩ => by
    rw [Message.documented, Message.declarations]
    split
    · exact List.nil_sublist _
    · exact (List.Sublist.refl _).append (sublist_documentedOf messages)

private theorem sublist_documentedOf : ∀ ms : List Message,
    (documentedOf ms).Sublist (declarationsOf ms)
  | [] => List.Sublist.refl _
  | m :: ms => by
    rw [documentedOf, declarationsOf]
    exact (sublist_documented m).append (sublist_documentedOf ms)

end

mutual

private theorem isMapEntry_of_mem_documented : ∀ (m : Message) (d : Declaration), d ∈ m.documented →
    d.isMapEntry = false
  | ⟨name, fullName, description, fields, messages, enums, isMapEntry⟩, d, hd => by
    rw [Message.documented] at hd
    split at hd
    · simp at hd
    · rename_i hentry
      rcases List.mem_append.mp hd with hd | hd
      · rcases List.mem_cons.mp hd with rfl | hd
        · simpa [Declaration.isMapEntry] using hentry
        · obtain ⟨e, -, rfl⟩ := List.mem_map.mp hd
          rfl
      · exact isMapEntry_of_mem_documentedOf messages d hd

private theorem isMapEntry_of_mem_documentedOf : ∀ (ms : List Message) (d : Declaration),
    d ∈ documentedOf ms → d.isMapEntry = false
  | [], d, hd => by simp [documentedOf] at hd
  | m :: ms, d, hd => by
    rw [documentedOf] at hd
    rcases List.mem_append.mp hd with hd | hd
    · exact isMapEntry_of_mem_documented m d hd
    · exact isMapEntry_of_mem_documentedOf ms d hd

end

theorem File.sublist_documented (f : File) : f.documented.Sublist f.declarations :=
  (List.Sublist.refl _).append (sublist_documentedOf f.messages)

private theorem File.isMapEntry_of_mem_documented {f : File} {d : Declaration}
    (hd : d ∈ f.documented) :
    d.isMapEntry = false := by
  rcases List.mem_append.mp hd with hd | hd
  · obtain ⟨e, -, rfl⟩ := List.mem_map.mp hd
    rfl
  · exact isMapEntry_of_mem_documentedOf f.messages d hd

variable {s : Schema}

theorem mem_declared {f : File} {d : Declaration} (hf : f ∈ s.files) (hd : d ∈ f.declarations) :
    ⟨f.package, d⟩ ∈ s.declared :=
  List.mem_flatMap.mpr ⟨f, hf, List.mem_map_of_mem hd⟩

theorem mem_ordered {f : File} : f ∈ s.ordered ↔ f ∈ s.files := by
  rw [ordered, List.mem_mergeSort]

theorem firstRepeat?_eq_none_iff {α : Type} [DecidableEq α] {seen l : List α} :
    firstRepeat? seen l = none ↔ l.Nodup ∧ ∀ a ∈ l, a ∉ seen := by
  induction l generalizing seen with
  | nil => simp [firstRepeat?]
  | cons a l ih =>
    rw [firstRepeat?]
    split
    · rename_i ha
      simp [ha]
    · rename_i ha
      have hsplit : (∀ b ∈ l, b ∉ a :: seen) ↔ a ∉ l ∧ ∀ b ∈ l, b ∉ seen := by
        constructor
        · intro h
          exact ⟨fun hal => h a hal List.mem_cons_self,
            fun b hb hs => h b hb (List.mem_cons_of_mem _ hs)⟩
        · intro h b hb hs
          rcases List.mem_cons.mp hs with rfl | hs
          · exact h.1 hb
          · exact h.2 b hb hs
      rw [ih, hsplit, List.nodup_cons, List.forall_mem_cons]
      exact ⟨fun h => ⟨⟨h.2.1, h.1⟩, ha, h.2.2⟩, fun h => ⟨h.1.2, h.1.1, h.2.2⟩⟩

/-- The places that the documented declarations of a file take in its package. -/
def File.slots (f : File) : List (String × String) := f.documented.map fun d => (f.package, d.name)

private theorem File.slots_sublist (f : File) :
    f.slots.Sublist ((f.declarations.map (⟨f.package, ·⟩)).filterMap Declared.slot?) := by
  have hslots : f.slots = (f.documented.map (⟨f.package, ·⟩)).filterMap Declared.slot? := by
    rw [File.slots, List.filterMap_map, ← List.filterMap_eq_map]
    apply List.filterMap_congr
    intro d hd
    simp [Declared.slot?, File.isMapEntry_of_mem_documented hd]
  rw [hslots]
  exact (f.sublist_documented.map _).filterMap _

theorem nodup_slots (h : s.clash? = none) : (s.ordered.flatMap File.slots).Nodup := by
  have hall := (firstRepeat?_eq_none_iff.mp h).1
  have hperm : (s.ordered.flatMap fun f => f.declarations.map (⟨f.package, ·⟩ : _ → Declared)).Perm
      s.declared :=
    (List.mergeSort_perm _ _).flatMap_right _
  refine ((hperm.filterMap Declared.slot?).nodup_iff.mpr hall).sublist ?_
  rw [List.filterMap_flatMap]
  exact List.Sublist.flatMap_right _ fun f _ => f.slots_sublist

private theorem not_both_documented (h : s.clash? = none) {i j : Nat} (hij : i < j) {f g : File}
    {d e : Declaration} (hf : s.ordered[i]? = some f) (hg : s.ordered[j]? = some g)
    (hd : d ∈ f.documented) (he : e ∈ g.documented) (hpackage : f.package = g.package) :
    d.name ≠ e.name := by
  intro hname
  have hdisjoint := (List.nodup_flatMap.mp (nodup_slots h)).2
  obtain ⟨hi, rfl⟩ := List.getElem?_eq_some_iff.mp hf
  obtain ⟨hj, rfl⟩ := List.getElem?_eq_some_iff.mp hg
  refine List.pairwise_iff_getElem.mp hdisjoint i j hi hj hij (List.mem_map_of_mem hd) ?_
  rw [hpackage, hname]
  exact List.mem_map_of_mem he

/-- Where no package declares a name twice, only one file documents it. -/
theorem documented_unique (h : s.clash? = none) {i j : Nat} {f g : File} {d e : Declaration}
    (hf : s.ordered[i]? = some f) (hg : s.ordered[j]? = some g) (hd : d ∈ f.documented)
    (he : e ∈ g.documented) (hpackage : f.package = g.package) (hname : d.name = e.name) :
    i = j := by
  rcases Nat.lt_trichotomy i j with hlt | heq | hgt
  · exact absurd hname (not_both_documented h hlt hf hg hd he hpackage)
  · exact heq
  · exact absurd hname.symm (not_both_documented h hgt hg hf he hd hpackage.symm)

namespace Index

theorem mem_of_find? {ix : Index} {fullName : String} {x : Declared}
    (h : ix.find? fullName = some x) : x ∈ ix.declared ∧ x.declaration.fullName = fullName := by
  refine ⟨List.mem_reverse.mp (List.mem_of_find?_eq_some h), ?_⟩
  simpa using List.find?_some h

theorem find?_eq_none_iff {ix : Index} {fullName : String} :
    ix.find? fullName = none ↔ ∀ x ∈ ix.declared, x.declaration.fullName ≠ fullName := by
  simp [Index.find?]

theorem mem_of_message? {ix : Index} {fullName : String} {m : Message}
    (h : ix.message? fullName = some m) :
    ∃ package, ⟨package, .message m⟩ ∈ ix.declared ∧ m.fullName = fullName := by
  unfold Index.message? at h
  split at h
  · rename_i package m' hf
    cases h
    exact ⟨package, Index.mem_of_find? hf⟩
  · cases h

end Index

theorem find?_of_mem (h : (s.declared.map (·.declaration.fullName)).Nodup) {x : Declared}
    (hx : x ∈ s.declared) : s.index.find? x.declaration.fullName = some x := by
  cases hf : s.index.find? x.declaration.fullName with
  | none => exact absurd rfl (Index.find?_eq_none_iff.mp hf x hx)
  | some y =>
    obtain ⟨hy, hname⟩ := Index.mem_of_find? hf
    rw [List.inj_on_of_nodup_map h hy hx hname]

theorem message?_of_mem (h : (s.declared.map (·.declaration.fullName)).Nodup) {package : String}
    {m : Message} (hm : ⟨package, .message m⟩ ∈ s.declared) :
    s.index.message? m.fullName = some m := by
  have hfound : s.index.find? m.fullName = some ⟨package, .message m⟩ := find?_of_mem h hm
  rw [Index.message?, hfound]

theorem flatName_of_mem (h : (s.declared.map (·.declaration.fullName)).Nodup) {x : Declared}
    (hx : x ∈ s.declared) : s.index.flatName x.declaration.fullName = x.flatName := by
  rw [Index.flatName, find?_of_mem h hx]

theorem flatName_of_undeclared {fullName : String}
    (h : ∀ x ∈ s.declared, x.declaration.fullName ≠ fullName) :
    s.index.flatName fullName = fullName := by
  have hnone : s.index.find? fullName = none := Index.find?_eq_none_iff.mpr h
  rw [Index.flatName, hnone]

theorem exists_declared_of_message? {fullName : String} {m : Message}
    (h : s.index.message? fullName = some m) :
    ∃ x ∈ s.declared, x.declaration.fullName = fullName := by
  obtain ⟨package, hmem, hname⟩ := Index.mem_of_message? h
  exact ⟨_, hmem, hname⟩

end SchemaDocs.Schema
