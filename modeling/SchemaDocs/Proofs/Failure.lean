import SchemaDocs.Proofs.Fixpoint

/-!
# Why pruning fails

Pruning reports the first reference, in the order in which packages are read, that leads to no
declaration; everything that the walk can meet has been checked before, so nothing else fails it.
A list that cannot be pruned stays as it is. Main statement: `pruneInPlace_fails_iff`.
-/

namespace SchemaDocs

open Doc (Package TypeDoc)

variable {ps qs : List Package} {e : ResolutionError} {name : String}

/-- All references of a list in reading order: package by package, first the types in the order of
their keys, then the requests and responses of the endpoints. -/
def written (ps : List Package) : List String :=
  ps.flatMap fun p => p.types.values.flatMap (·.refs) ++
    p.endpoints.flatMap fun e => e.request.refs ++ e.response.refs

private theorem flatMap_refs_eq_written (ps : List Package) : ps.flatMap (·.refs) = written ps := by
  have hrefs (p : Package) : p.refs = p.types.values.flatMap (·.refs) ++
      p.endpoints.flatMap fun e => e.request.refs ++ e.response.refs := by
    simp [Package.refs, Package.roots, List.flatMap_assoc]
  simp only [written, hrefs]

namespace Scope
variable {scope : Scope}

private theorem exists_resolve_eq_error_iff :
    (∃ e, scope.resolve name = .error e) ↔
      ∀ t, scope.find? name = some t → t.type.isDeclaration = false := by
  constructor
  · intro h t ht
    obtain ⟨e, he⟩ := h
    by_contra hd
    have hok : scope.resolve name = .ok t := resolve_eq_ok_iff.mpr ⟨ht, by simpa using hd⟩
    rw [he] at hok
    cases hok
  · intro h
    cases hr : scope.resolve name with
    | error e => exact ⟨e, rfl⟩
    | ok t =>
      obtain ⟨hf, hd⟩ := resolve_eq_ok_iff.mp hr
      simp [h t hf] at hd

end Scope

private theorem resolveAll_eq_error_iff :
    resolveAll ps = .error e ↔ ∃ before n after, written ps = before ++ n :: after ∧
      (∀ m ∈ before, ∃ t, (Scope.ofPackages ps).resolve m = .ok t) ∧
      (Scope.ofPackages ps).resolve n = .error e := by
  have hfirst : resolveAll ps = .error e ↔
      (written ps).findSome? (Scope.ofPackages ps).failure? = some e := by
    rw [resolveAll, firstFailure?, flatMap_refs_eq_written]
    split
    · rename_i e' he
      simp [he]
    · rename_i hnone
      simp [hnone]
  simp only [hfirst, List.findSome?_eq_some_iff, Scope.failure?_eq_some_iff,
    Scope.failure?_eq_none_iff]
  constructor
  · intro h
    obtain ⟨before, n, after, hsplit, hn, hbefore⟩ := h
    exact ⟨before, n, after, hsplit, hbefore, hn⟩
  · intro h
    obtain ⟨before, n, after, hsplit, hbefore, hn⟩ := h
    exact ⟨before, n, after, hsplit, hn, hbefore⟩

private theorem pruneInPlace_eq_error_iff :
    pruneInPlace.run.run ps = (.error e, qs) ↔ resolveAll ps = .error e ∧ qs = ps := by
  rw [run_pruneInPlace]
  cases h : resolveAll ps with
  | error e' =>
    constructor
    · intro heq
      cases heq
      exact ⟨rfl, rfl⟩
    · intro heq
      obtain ⟨he, rfl⟩ := heq
      cases he
      rfl
  | ok _ =>
    obtain ⟨used, hu⟩ := exists_reachable_of_resolveAll h
    rw [hu]
    constructor
    · intro heq
      cases heq
    · intro heq
      cases heq.1

/-- Pruning fails exactly when some reference, reachable or not, leads to no declaration. The error
is that of the first such reference in reading order, and the list then is as it was. Once all
references are checked the walk cannot fail. -/
theorem pruneInPlace_fails_iff (ps : List Package) :
    ((∃ e qs, pruneInPlace.run.run ps = (.error e, qs)) ↔
      ∃ n ∈ written ps, ∀ t, (Scope.ofPackages ps).find? n = some t →
        t.type.isDeclaration = false) ∧
    (∀ e qs, pruneInPlace.run.run ps = (.error e, qs) ↔
      (∃ before n after, written ps = before ++ n :: after ∧
        (∀ m ∈ before, ∃ t, (Scope.ofPackages ps).resolve m = .ok t) ∧
        (Scope.ofPackages ps).resolve n = .error e) ∧ qs = ps) ∧
    (resolveAll ps = .ok () → ∃ used, reachable ps = .ok used) := by
  have hfails (e : ResolutionError) (qs : List Package) := @pruneInPlace_eq_error_iff ps qs e
  refine ⟨?_, ?_, exists_reachable_of_resolveAll⟩
  · simp only [hfails, ← Scope.exists_resolve_eq_error_iff]
    constructor
    · intro h
      obtain ⟨e, -, he, -⟩ := h
      obtain ⟨before, n, after, hsplit, -, hn⟩ := resolveAll_eq_error_iff.mp he
      exact ⟨n, by simp [hsplit], e, hn⟩
    · intro h
      obtain ⟨n, hn, e, he⟩ := h
      cases hall : resolveAll ps with
      | error e' => exact ⟨e', ps, rfl, rfl⟩
      | ok _ =>
        rw [← flatMap_refs_eq_written] at hn
        obtain ⟨p, hp, hr⟩ := List.mem_flatMap.mp hn
        obtain ⟨t, ht⟩ := resolveAll_eq_ok_iff.mp hall p hp n hr
        rw [he] at ht
        cases ht
  · intro e qs
    rw [hfails, resolveAll_eq_error_iff]

/-- Of two packages the first refers to nothing known, in a type that no endpoint reaches. -/
theorem pruneInPlace_fails_hidden :
    pruneInPlace.run.run [hiddenPackage "pkg.Ghost", hidingPackage] =
      (.error (.unresolved "pkg.Ghost"), [hiddenPackage "pkg.Ghost", hidingPackage]) ∧
    resolveAll loopPackages = .ok () ∧ ∃ used, reachable loopPackages = .ok used := by
  have hall : resolveAll loopPackages = .ok () := by cbv
  refine ⟨?_, hall, (pruneInPlace_fails_iff loopPackages).2.2 hall⟩
  rw [(pruneInPlace_fails_iff _).2.1]
  exact ⟨⟨[], "pkg.Ghost", ["pkg.a.Foo"], by decide, by simp, by cbv⟩, rfl⟩

end SchemaDocs
