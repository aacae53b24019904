import SchemaDocs.Doc.Basic

/-!
# Resolution of references

A full name is looked up in every package whose identifier it starts with, the longest identifier
first; packages with one identifier are asked in their order. What it finds must be a declaration.
-/

namespace SchemaDocs

open Doc (Package TypeDoc)

/-- Why a reference has no target. -/
inductive ResolutionError where
  /-- No package holds the name. -/
  | unresolved (name : String)
  /-- The name leads to a type that is no declaration. -/
  | notADeclaration (name form : String)
deriving DecidableEq

def ResolutionError.message : ResolutionError → String
  | unresolved n => "ref type not found: " ++ n
  | notADeclaration n f => "ref `" ++ n ++ "` points at a " ++ f ++ ", not a declaration"

/-- What a name leads to: an entry of the package at a position of the list. -/
structure Target where
  position : Nat
  package : Package
  key : String
  type : TypeDoc

/-- The full name of the entry. -/
def Target.fullName (t : Target) : String := Name.qualify t.package.id t.key

/-- Packages with their positions, in the order in which they are asked. -/
abbrev Scope := List (Package × Nat)

namespace Scope

/-- The longest identifier goes first, as counted in bytes. -/
def ofPackages (ps : List Package) : Scope :=
  ps.zipIdx.mergeSort fun a b => b.1.id.utf8ByteSize ≤ a.1.id.utf8ByteSize

/-- The entry of one package that a name stands for. -/
def lookIn? (name : String) (p : Package × Nat) : Option Target := do
  let key ← Name.strip? p.1.id name
  let type ← p.1.types.get? key
  return ⟨p.2, p.1, key, type⟩

/-- The entry that a name leads to. -/
def find? (scope : Scope) (name : String) : Option Target := scope.findSome? (lookIn? name)

/-- The declaration that a name leads to. -/
def resolve (scope : Scope) (name : String) : Except ResolutionError Target :=
  match scope.find? name with
  | none => .error (.unresolved name)
  | some t =>
    if t.type.isDeclaration then .ok t else .error (.notADeclaration name t.type.form)

/-- Why a name does not resolve. -/
def failure? (scope : Scope) (name : String) : Option ResolutionError :=
  match scope.resolve name with
  | .error e => some e
  | .ok _ => none

/-- The full names of all entries. -/
def names (scope : Scope) : List String := scope.flatMap (·.1.names)

theorem fullName_of_lookIn? {name : String} {p : Package × Nat} {t : Target}
    (h : lookIn? name p = some t) :
    t.fullName = name ∧ t.package = p.1 ∧ t.key ∈ p.1.types.keys := by
  simp only [lookIn?, Option.bind_eq_bind, Option.bind_eq_some_iff] at h
  obtain ⟨key, hk, type, ht, h⟩ := h
  cases h
  refine ⟨Name.strip?_eq_some_iff.1 hk, rfl, KeyMap.mem_keys_of_get? ht⟩

theorem fullName_of_resolve {scope : Scope} {name : String} {t : Target}
    (h : scope.resolve name = .ok t) : t.fullName = name ∧ name ∈ scope.names := by
  unfold resolve at h
  split at h
  · simp at h
  · rename_i t' hf
    split at h
    · cases h
      obtain ⟨l, p, r, rfl, hp, -⟩ := List.findSome?_eq_some_iff.1 hf
      obtain ⟨hn, hpkg, hk⟩ := fullName_of_lookIn? hp
      refine ⟨hn, ?_⟩
      rw [← hn]
      simp only [names, List.mem_flatMap]
      exact ⟨p, by simp, List.mem_map.2 ⟨t.key, hk, by rw [Target.fullName, hpkg]⟩⟩
    · simp at h

end Scope
end SchemaDocs
