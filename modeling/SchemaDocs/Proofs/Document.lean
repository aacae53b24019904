import SchemaDocs.Phase
import SchemaDocs.Proofs.Doc.Json
import SchemaDocs.Proofs.Schema.Json

/-!
# Documents read back

What is written as a document is read from its text as it was, from the compact and from the pretty
one. Only a value that opens more containers inside each other than a document may is refused.
-/

namespace SchemaDocs

open Json (Reader Value)
open Json.Reader (Reads reads_list)
open Doc (Package Chapter)

/-- A document is read from both texts of a value, unless the value nests too deep. -/
def ReadBack {α : Type} (read : Reader α) (v : Value) (a : α) : Prop :=
  ∀ text ∈ [String.ofList v.compact, prettyText v],
    read.document? text = if v.nesting < 128 then some a else none

theorem document?_of_parse? {α : Type} {read : Reader α} {v : Value} {a : α} (h : Reads read v a)
    {text : List Char} (hparse : Json.parse? text = some v) :
    read.document? (String.ofList text) = if v.nesting < 128 then some a else none := by
  rw [Reader.document?, String.toList_ofList, hparse, Option.bind_eq_bind, Option.bind_some,
    h Json.maxDepth]
  exact if_congr Nat.lt_succ_iff.symm rfl rfl

theorem readBack {α : Type} {read : Reader α} {v : Value} {a : α} (hv : v.Plain)
    (h : Reads read v a) : ReadBack read v a := by
  have hpretty : Json.parse? v.pretty = some v := by
    simpa using Json.parse?_pretty_append hv .nil Json.Token.delimited_nil
  intro text htext
  rcases List.mem_pair.mp htext with rfl | rfl
  · exact document?_of_parse? h (Json.parse?_compact hv)
  · exact document?_of_parse? h hpretty

theorem packagesJson_plain (ps : List Package) : (packagesJson ps).Plain :=
  Value.plain_list fun p _ => p.toJson_plain

theorem packagesJson_reads (ps : List Package) :
    Reads (Reader.list Package.read) (packagesJson ps) ps :=
  reads_list fun p _ => p.reads

/-- Whatever schema, packages or chapter is written is read back. -/
theorem documents_readBack (s : Schema) (ps : List Package) (c : Chapter) :
    ReadBack Schema.read s.toJson s ∧
      ReadBack (Reader.list Package.read) (packagesJson ps) ps ∧
      ReadBack Chapter.read c.toJson c :=
  ⟨readBack s.toJson_plain s.reads, readBack (packagesJson_plain ps) (packagesJson_reads ps),
    readBack c.toJson_plain c.reads⟩

end SchemaDocs
