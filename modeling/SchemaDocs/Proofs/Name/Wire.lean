import SchemaDocs.Name
import SchemaDocs.Proofs.Text.Uppercase

/-!
# Wire names

The default wire name of a field, told by the pieces that underscores cut its name into: the first
as it is, and each later one with its first character in upper case. Nothing is left to drop, so a
wire name is its own wire name. Main statement: `wire_pieces`.
-/

namespace SchemaDocs.Name

open Text (capitalize)

/-- Reading a text with its underscores is reading its pieces. That a character is to be raised
matters to the first piece only: each later one stands behind an underscore. -/
theorem exists_camel_eq (raise : Bool) (s : List Char) : ∃ first rest,
    s.splitOn '_' = first :: rest ∧
      camel raise s = (if raise then capitalize first else first) ++ rest.flatMap capitalize := by
  induction s generalizing raise with
  | nil => exact ⟨[], [], List.splitOn_nil '_', by cases raise <;> rfl⟩
  | cons c s ih =>
    by_cases hc : c = '_'
    · subst hc
      obtain ⟨first, rest, hsplit, hcamel⟩ := ih true
      refine ⟨[], first :: rest, ?_, ?_⟩
      · rw [List.splitOn_cons_eq_if_modifyHead, hsplit]
        rfl
      · rw [camel, if_pos rfl, hcamel]
        cases raise <;> simp
    · obtain ⟨first, rest, hsplit, hcamel⟩ := ih false
      refine ⟨c :: first, rest, ?_, ?_⟩
      · rw [List.splitOn_cons_eq_if_modifyHead, if_neg (by simpa using hc), hsplit,
          List.modifyHead_cons]
      · rw [camel, if_neg hc, hcamel]
        cases raise <;> simp [capitalize]

private theorem underscore_mem_upper {c : Char} (h : '_' ∈ Text.upper c) : c = '_' :=
  Text.eq_of_mem_upper (by decide +kernel) h (by decide)

private theorem underscore_not_mem_camel (raise : Bool) (s : List Char) : '_' ∉ camel raise s := by
  induction s generalizing raise with
  | nil => exact List.not_mem_nil
  | cons c s ih =>
    by_cases hc : c = '_'
    · rw [camel, if_pos hc]
      exact ih true
    · rw [camel, if_neg hc, List.mem_append, not_or]
      refine ⟨fun hmem => hc ?_, ih false⟩
      cases raise with
      | false => exact (List.mem_singleton.mp hmem).symm
      | true => exact underscore_mem_upper hmem

private theorem underscore_not_mem_wire (name : String) : '_' ∉ (wire name).toList := by
  rw [wire, String.toList_ofList]
  exact underscore_not_mem_camel false name.toList

private theorem wire_eq_self_iff {name : String} : wire name = name ↔ '_' ∉ name.toList := by
  constructor
  · intro h
    exact h ▸ underscore_not_mem_wire name
  · intro h
    obtain ⟨first, rest, hsplit, hcamel⟩ := exists_camel_eq false name.toList
    rw [List.splitOn_eq_singleton h] at hsplit
    cases hsplit
    rw [wire, hcamel]
    simp

/-- A wire name is the first piece of the name as it is and every later piece with its first
character, if there is one, in upper case. No underscore is left in it, and it is its own wire
name. -/
theorem wire_pieces (name : String) :
    (∃ first rest, name.toList.splitOn '_' = first :: rest ∧
      (wire name).toList = first ++ rest.flatMap capitalize) ∧
      '_' ∉ (wire name).toList ∧ wire (wire name) = wire name := by
  obtain ⟨first, rest, hsplit, hcamel⟩ := exists_camel_eq false name.toList
  refine ⟨⟨first, rest, hsplit, ?_⟩, underscore_not_mem_wire name, ?_⟩
  · rw [wire, String.toList_ofList]
    exact hcamel
  · exact wire_eq_self_iff.mpr (underscore_not_mem_wire name)

/-- Runs of underscores, an upper-case letter behind one, and a letter whose upper case is two. -/
example : wire "__unit_Price__ßtrasse_2_" = "UnitPriceSStrasse2" := by decide +kernel

end SchemaDocs.Name
