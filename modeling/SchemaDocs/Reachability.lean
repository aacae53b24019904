import SchemaDocs.Resolution

/-!
# Reachability

From the requests and responses of all endpoints, through what is written inside types and through
references to declarations. A declaration is recorded by its full name before it is entered, and a
recorded one is not entered again: so the walk ends, however declarations refer to each other.
-/

namespace SchemaDocs

open Doc (Package TypeDoc)

/-- A set of names in order. -/
abbrev NameSet := KeyMap Unit

namespace NameSet

def add (used : NameSet) (name : String) : NameSet := used.insert name ()

theorem contains_add (used : NameSet) (name n : String) :
    (used.add name).contains n = (n == name || used.contains n) := by
  by_cases h : n = name <;> simp [add, KeyMap.contains, KeyMap.get?_insert, h]

end NameSet

namespace Scope

/-- How many entries are not recorded. -/
def pending (scope : Scope) (used : NameSet) : Nat :=
  (scope.names.filter (!used.contains ·)).length

theorem length_filter_lt {α : Type} {p q : α → Bool} {l : List α} (h : ∀ a, q a = true → p a = true)
    {x : α} (hx : x ∈ l) (hp : p x = true) (hq : q x = false) :
    (l.filter q).length < (l.filter p).length := by
  induction l with
  | nil => simp at hx
  | cons a l ih =>
    have hle : (l.filter q).length ≤ (l.filter p).length := by
      rw [← List.countP_eq_length_filter, ← List.countP_eq_length_filter]
      exact List.countP_mono_left fun a _ => h a
    by_cases ha : a = x
    · subst ha
      simp [hp, hq]
      omega
    · have := ih ((List.mem_cons.1 hx).resolve_left (Ne.symm ha))
      by_cases hqa : q a = true
      · simp [hqa, h a hqa, this]
      · by_cases hpa : p a = true <;> simp [hqa, hpa] <;> omega

theorem pending_add_lt {scope : Scope} {used : NameSet} {name : String}
    (hm : name ∈ scope.names) (hu : ¬ used.contains name = true) :
    scope.pending (used.add name) < scope.pending used :=
  length_filter_lt (x := name)
    (fun n hn => by simp only [NameSet.contains_add] at hn; simp_all) hm (by simpa using hu)
    (by simp [NameSet.contains_add])

/-- Walks the types still to visit, in order, and gives the names recorded in the end. -/
def walk (scope : Scope) (used : NameSet) :
    List TypeDoc → Except ResolutionError NameSet
  | [] => .ok used
  | .enum .. :: rest => scope.walk used rest
  | .basic .. :: rest => scope.walk used rest
  | .array item :: rest => scope.walk used (item :: rest)
  | .map key value :: rest => scope.walk used (key :: value :: rest)
  | .message _ _ fields :: rest => scope.walk used (fields.map (·.type) ++ rest)
  | .ref name :: rest =>
    match h : scope.resolve name with
    | .error e => .error e
    | .ok target =>
      if hu : used.contains target.fullName then scope.walk used rest
      else
        have : scope.pending (used.add target.fullName) < scope.pending used :=
          have hn := fullName_of_resolve h
          pending_add_lt (hn.1 ▸ hn.2) hu
        scope.walk (used.add target.fullName) (target.type :: rest)
termination_by types => (scope.pending used, TypeDoc.totalSize types)
decreasing_by
  case _ | _ | _ | _ =>
    apply Prod.Lex.right
    simp only [TypeDoc.totalSize_cons, TypeDoc.size]
    omega
  · apply Prod.Lex.right
    simp [TypeDoc.size, TypeDoc.fieldSize_eq]
  · apply Prod.Lex.right
    simp only [TypeDoc.totalSize_cons, TypeDoc.size]
    omega
  · exact Prod.Lex.left _ _ this

end Scope

/-- The full names of the declarations that some endpoint reaches. -/
def reachable (ps : List Package) : Except ResolutionError NameSet :=
  (Scope.ofPackages ps).walk KeyMap.empty (ps.flatMap (·.roots))

end SchemaDocs
