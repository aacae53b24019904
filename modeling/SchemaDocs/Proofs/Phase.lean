import SchemaDocs.Proofs.Document
import SchemaDocs.Proofs.Pruning
import SchemaDocs.Proofs.Schema.Chain

/-!
# Phases one after the other

Pruning what conversion has written is pruning what it has made, as long as the written packages
nest no deeper than a document may. Main statement: `Phase.prune_after_convert`.
-/

namespace SchemaDocs

open Json (Reader Value)
open Doc (Package)

theorem toUTF8_append (s t : String) : (s ++ t).toUTF8 = s.toUTF8 ++ t.toUTF8 := by
  simp only [String.toUTF8_eq_toByteArray, String.toByteArray_append]

theorem decodeText_toUTF8 (s : String) : decodeText s.toUTF8 = .ok s := by
  rw [decodeText, String.fromUTF8?, String.toUTF8_eq_toByteArray, dif_pos s.isValidUTF8]
  rfl

/-! ## Outputs -/

namespace Sink
variable {s s' : Sink}

private theorem written_of_writeText {text : String} (h : s.writeText text = (.ok (), s')) :
    s'.written = s.written ++ text.toUTF8 := by
  unfold writeText write at h
  split at h
  · cases h
    rfl
  · dsimp only at h
    split at h <;> cases h
    rfl

end Sink

namespace Phase

theorem result_toUTF8 (p : Phase) (text : String) : p.result (.ok text.toUTF8) = p.apply text := by
  rw [result, Except.bind, decodeText_toUTF8]

/-- The text of a document, with the line break that ends it. -/
def documentText (v : Value) : String := prettyText v ++ "\n"

theorem toUTF8_documentText (v : Value) :
    (documentText v).toUTF8 = (prettyText v).toUTF8 ++ "\n".toUTF8 :=
  toUTF8_append _ _

private theorem written_of_emit {v : Value} {out out' : Sink} (h : emit v out = (.ok (), out')) :
    out'.written = out.written ++ (documentText v).toUTF8 := by
  unfold emit at h
  split at h
  · cases h
  · rename_i between hdocument
    split at h
    · cases h
    · rename_i final hbreak
      cases h
      rw [Sink.written_of_writeText hbreak, Sink.written_of_writeText hdocument,
        ByteArray.append_assoc, toUTF8_documentText]

private theorem run_eq_ok {p : Phase} {input : Except FileError ByteArray} {out out' : Sink}
    (h : p.run input out = (.ok (), out')) :
    ∃ ps, p.result input = .ok ps ∧
      out'.written = out.written ++ (documentText (packagesJson ps)).toUTF8 := by
  unfold run at h
  split at h
  · cases h
  · rename_i ps hresult
    exact ⟨ps, hresult, written_of_emit h⟩

theorem document?_documentText (ps : List Package) :
    (Reader.list Package.read).document? (documentText (packagesJson ps)) =
      if (packagesJson ps).nesting < 128 then some ps else none := by
  have hbreak : Json.Spells ['\n'] [] := .space (by decide) .nil
  have hparse := Json.parse?_pretty_append (packagesJson_plain ps) hbreak
    (Value.delimited_cons [] (by simp))
  have htext : documentText (packagesJson ps) =
      String.ofList ((packagesJson ps).pretty ++ ['\n']) := by
    rw [documentText, prettyText, String.ofList_append]
  rw [htext]
  exact document?_of_parse? (packagesJson_reads ps) hparse

private theorem run_prune_documentText (ps : List Package) (sink : Sink) :
    prune.run (.ok (documentText (packagesJson ps)).toUTF8) sink =
      if (packagesJson ps).nesting < 128 then
        match SchemaDocs.prune ps with
        | .error e => (.error (.resolution e), sink)
        | .ok (pruned, _) => emit (packagesJson pruned) sink
      else (.error .malformed, sink) := by
  rw [run, result_toUTF8, apply, pruneText, document?_documentText]
  by_cases hdepth : (packagesJson ps).nesting < 128
  · rw [if_pos hdepth, if_pos hdepth]
    dsimp only
    cases SchemaDocs.prune ps with
    | error e => rfl
    | ok pruned => rfl
  · rw [if_neg hdepth, if_neg hdepth]

/-- After a conversion that succeeds, pruning reads the packages that were made, unless they nest
too deep, and then does just what pruning them does. -/
theorem prune_after_convert {input : Except FileError ByteArray} {limit : Option Nat} {out : Sink}
    (h : convert.run input ⟨limit, .empty⟩ = (.ok (), out)) :
    ∃ ps, convert.result input = .ok ps ∧ ∀ sink, prune.run (.ok out.written) sink =
      if (packagesJson ps).nesting < 128 then
        match SchemaDocs.prune ps with
        | .error e => (.error (.resolution e), sink)
        | .ok (pruned, _) => emit (packagesJson pruned) sink
      else (.error .malformed, sink) := by
  obtain ⟨ps, hresult, hwritten⟩ := run_eq_ok h
  refine ⟨ps, hresult, fun sink => ?_⟩
  rw [hwritten, ByteArray.empty_append]
  exact run_prune_documentText ps sink

theorem emit_unlimited (v : Value) :
    emit v .unlimited = (.ok (), ⟨none, (documentText v).toUTF8⟩) := by
  have hbytes : ByteArray.empty ++ (prettyText v).toUTF8 ++ "\n".toUTF8 =
      (documentText v).toUTF8 := by
    rw [ByteArray.empty_append, toUTF8_documentText]
  rw [← hbytes]
  rfl

theorem result_convert_toJson {s : Schema} (hdepth : s.toJson.nesting < 128) :
    convert.result (.ok (prettyText s.toJson).toUTF8) = s.packages.mapError .conversion := by
  have hread := readBack s.toJson_plain s.reads _ (List.mem_cons_of_mem _ List.mem_cons_self)
  rw [if_pos hdepth] at hread
  rw [result_toUTF8, apply, convertText, hread]

section
variable (n : Nat)

private theorem result_convert_chain :
    convert.result (.ok (prettyText (Schema.chain n).toJson).toUTF8) =
      .ok [Schema.chainPackage n] := by
  have hdepth : (Schema.chain n).toJson.nesting < 128 :=
    Nat.lt_of_le_of_lt (Schema.nesting_chain n) (by decide)
  rw [result_convert_toJson hdepth, Schema.packages_chain]
  rfl

private theorem run_convert_chain :
    convert.run (.ok (prettyText (Schema.chain n).toJson).toUTF8) .unlimited =
      (.ok (), ⟨none, (documentText (packagesJson [Schema.chainPackage n])).toUTF8⟩) := by
  rw [run, result_convert_chain]
  exact emit_unlimited _

theorem prune_chain : SchemaDocs.prune [Schema.chainPackage n] =
    .ok ([(Schema.chainPackage n).restrict KeyMap.empty], KeyMap.empty) := by
  refine prune_eq_ok_iff.mpr ⟨?_, ?_, rfl⟩
  · refine resolveAll_eq_ok_iff.mpr fun p hp r hr => ?_
    rw [List.mem_singleton.mp hp, Schema.refs_chainPackage] at hr
    simp at hr
  · have hroots : [Schema.chainPackage n].flatMap (·.roots) = [] := rfl
    rw [reachable, hroots, Scope.walk]

end

/-- A chain of two maps is pruned as it was made. -/
theorem prune_after_convert_chain :
    let out : Sink := ⟨none, (documentText (packagesJson [Schema.chainPackage 2])).toUTF8⟩
    convert.run (.ok (prettyText (Schema.chain 2).toJson).toUTF8) .unlimited = (.ok (), out) ∧
      prune.run (.ok out.written) .unlimited =
        emit (packagesJson [(Schema.chainPackage 2).restrict KeyMap.empty]) .unlimited := by
  have hrun := run_convert_chain 2
  obtain ⟨ps, hps, hprune⟩ := prune_after_convert hrun
  rw [result_convert_chain] at hps
  cases hps
  refine ⟨hrun, ?_⟩
  rw [hprune, Schema.nesting_chainPackage, prune_chain]
  rfl

/-- Of a chain of 121 maps conversion writes packages that pruning cannot read, although pruning
the packages themselves succeeds. -/
theorem prune_after_convert_refused : ∃ out ps pruned,
    convert.run (.ok (prettyText (Schema.chain 121).toJson).toUTF8) .unlimited = (.ok (), out) ∧
      convert.result (.ok (prettyText (Schema.chain 121).toJson).toUTF8) = .ok ps ∧
      SchemaDocs.prune ps = .ok pruned ∧
      prune.run (.ok out.written) .unlimited = (.error .malformed, .unlimited) := by
  refine ⟨_, _, _, run_convert_chain 121, result_convert_chain 121, prune_chain 121, ?_⟩
  rw [run_prune_documentText, Schema.nesting_chainPackage]
  rfl

end Phase
end SchemaDocs
