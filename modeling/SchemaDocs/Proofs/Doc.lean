import SchemaDocs.Doc.Basic
import SchemaDocs.Proofs.KeyMap

/-!
# References written in packages

A package refers to a name inside an entry, or inside the request or response of an endpoint.
-/

namespace SchemaDocs

open Doc (Package TypeDoc)

theorem mem_roots_iff {ps : List Package} {type : TypeDoc} : type ∈ ps.flatMap (·.roots) ↔
    ∃ p ∈ ps, ∃ e ∈ p.endpoints, type ∈ [e.request, e.response] := by
  simp only [Package.roots, List.mem_flatMap]

theorem mem_refs_roots {ps : List Package} {n : String} :
    n ∈ (ps.flatMap (·.roots)).flatMap (·.refs) ↔
      ∃ p ∈ ps, ∃ e ∈ p.endpoints, n ∈ e.request.refs ++ e.response.refs := by
  rw [List.mem_flatMap]
  constructor
  · intro h
    obtain ⟨t, ht, hn⟩ := h
    obtain ⟨p, hp, e, he, ht⟩ := mem_roots_iff.mp ht
    refine ⟨p, hp, e, he, List.mem_append.mpr ?_⟩
    rcases List.mem_pair.mp ht with rfl | rfl
    · exact Or.inl hn
    · exact Or.inr hn
  · intro h
    obtain ⟨p, hp, e, he, hn⟩ := h
    rcases List.mem_append.mp hn with hn | hn
    · exact ⟨e.request, mem_roots_iff.mpr ⟨p, hp, e, he, List.mem_cons_self⟩, hn⟩
    · refine ⟨e.response, mem_roots_iff.mpr ⟨p, hp, e, he, ?_⟩, hn⟩
      exact List.mem_cons_of_mem _ List.mem_cons_self

theorem Doc.Package.mem_refs_of_entry {p : Package} {key r : String} {type : TypeDoc}
    (h : p.types.get? key = some type) (hr : r ∈ type.refs) : r ∈ p.refs := by
  apply List.mem_append_left
  apply List.mem_flatMap.mpr
  exact ⟨type, KeyMap.mem_values_iff.mpr ⟨key, h⟩, hr⟩

theorem Doc.Package.mem_refs_iff {p : Package} {r : String} :
    r ∈ p.refs ↔ (∃ key type, p.types.get? key = some type ∧ r ∈ type.refs) ∨
      ∃ e ∈ p.endpoints, r ∈ e.request.refs ++ e.response.refs := by
  have hroots : r ∈ p.roots.flatMap (·.refs) ↔
      ∃ e ∈ p.endpoints, r ∈ e.request.refs ++ e.response.refs := by
    simpa using @mem_refs_roots [p] r
  rw [Package.refs, List.mem_append, hroots]
  apply or_congr_left
  simp only [List.mem_flatMap, KeyMap.mem_values_iff]
  constructor
  · intro h
    obtain ⟨type, ⟨key, hget⟩, hr⟩ := h
    exact ⟨key, type, hget, hr⟩
  · intro h
    obtain ⟨key, type, hget, hr⟩ := h
    exact ⟨type, ⟨key, hget⟩, hr⟩

end SchemaDocs
