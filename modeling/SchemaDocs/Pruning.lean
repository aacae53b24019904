import SchemaDocs.Reachability

/-!
# Pruning

Keeps of every package the types that some endpoint reaches, once every reference in the list is
known to resolve. The list is read until all names are known, and written only then.
-/

namespace SchemaDocs

open Doc (Package)

/-- The first reference of a list of packages that does not resolve, and why. -/
def firstFailure? (ps : List Package) : Option ResolutionError :=
  (ps.flatMap (·.refs)).findSome? (Scope.ofPackages ps).failure?

/-- Checks that every reference resolves, reachable or not. -/
def resolveAll (ps : List Package) : Except ResolutionError Unit :=
  match firstFailure? ps with
  | some e => .error e
  | none => .ok ()

/-- The package with those of its types whose full names are in the set. -/
def Doc.Package.restrict (used : NameSet) (p : Package) : Package :=
  { p with types := p.types.filter fun key _ => used.contains (Name.qualify p.id key) }

/-- Keeps in each package of a list, one after the other, the types whose full names are in the
set. -/
def retain (used : NameSet) : StateM (List Package) Unit := do
  for i in List.range (← get).length do
    modify (·.modify i (·.restrict used))

/-- Prunes a list of packages in place, and gives the full names of the types that some endpoint
reaches. -/
def pruneInPlace : ExceptT ResolutionError (StateM (List Package)) NameSet := do
  let ps ← get
  resolveAll ps
  let used ← reachable ps
  retain used
  return used

/-- The packages with the types that some endpoint reaches, and the full names of those types. -/
def prune (ps : List Package) : Except ResolutionError (List Package × NameSet) :=
  match pruneInPlace.run.run ps with
  | (.error e, _) => .error e
  | (.ok used, qs) => .ok (qs, used)

end SchemaDocs
