import SchemaDocs.Proofs.Json.Pieces
import SchemaDocs.Proofs.Phase

/-!
# Faulty inputs and outputs

A phase whose input breaks off, or whose document is refused, writes nothing. Else its output holds
the first bytes of the document that it makes, as many as the output takes, whatever pieces the
document is handed over in; and the error tells whether more than the last line break is missing.
Main statement: `Phase.run_faulty`.
-/

namespace SchemaDocs

open Json (Value Reader Printer)
open Doc (Package)

/-! ## Inputs -/

namespace Source
variable {src : Source}

/-- The number of bytes after which an input breaks off lies within it or just at its end. -/
def Broken (src : Source) : Prop := ∃ n, src.limit = some n ∧ n ≤ src.bytes.size

private theorem readAll_eq_ok_iff {bytes : ByteArray} :
    src.readAll = .ok bytes ↔ ¬ src.Broken ∧ src.bytes = bytes := by
  unfold readAll Broken
  cases src.limit with
  | none => simp
  | some n => by_cases hn : n ≤ src.bytes.size <;> simp [hn]

private theorem readAll_eq_error_iff {e : FileError} :
    src.readAll = .error e ↔ src.Broken ∧ e = .inputBroken := by
  unfold readAll Broken
  cases src.limit with
  | none => simp
  | some n => by_cases hn : n ≤ src.bytes.size <;> simp [hn, eq_comm]

/-- An input that does not break off and holds a text. -/
structure Holds (src : Source) (text : String) : Prop where
  whole : ¬ src.Broken
  bytes : src.bytes = text.toUTF8

end Source

theorem decodeText_eq_ok_iff {bytes : ByteArray} {text : String} :
    decodeText bytes = .ok text ↔ bytes = text.toUTF8 := by
  constructor
  · intro h
    unfold decodeText String.fromUTF8? at h
    split at h
    · rename_i s hs
      cases h
      split at hs <;> cases hs
      rfl
    · cases h
  · rintro rfl
    exact decodeText_toUTF8 text

private theorem decodeText_eq_error {bytes : ByteArray} (h : ∀ text : String, bytes ≠ text.toUTF8) :
    decodeText bytes = .error .notText := by
  cases hdecode : decodeText bytes with
  | ok text => exact absurd (decodeText_eq_ok_iff.mp hdecode) (h text)
  | error e =>
    unfold decodeText at hdecode
    split at hdecode <;> cases hdecode
    rfl

theorem decodeText_eq_error_iff {bytes : ByteArray} {e : FileError} :
    decodeText bytes = .error e ↔ (∀ text : String, bytes ≠ text.toUTF8) ∧ e = .notText := by
  constructor
  · intro h
    have hbytes : ∀ text : String, bytes ≠ text.toUTF8 := by
      intro text htext
      rw [decodeText_eq_ok_iff.mpr htext] at h
      cases h
    rw [decodeText_eq_error hbytes] at h
    cases h
    exact ⟨hbytes, rfl⟩
  · rintro ⟨hbytes, rfl⟩
    exact decodeText_eq_error hbytes

/-! ## Outputs -/

namespace Sink

private theorem extract_eq_self {a : ByteArray} {n : Nat} (h : a.size ≤ n) : a.extract 0 n = a := by
  rw [← Nat.max_eq_left h]
  exact ByteArray.extract_zero_max_size

/-- The first refusal ends the writing of two runs of bytes. -/
theorem write_append (s : Sink) (a b : ByteArray) :
    s.write (a ++ b) =
      match s.write a with
      | (.error e, s') => (.error e, s')
      | (.ok (), s') => s'.write b := by
  obtain ⟨limit, written⟩ := s
  cases limit with
  | none => simp [write, ByteArray.append_assoc]
  | some n =>
    have hpart : (a ++ b).extract 0 (n - written.size) =
        a.extract 0 (n - written.size) ++ b.extract 0 (n - written.size - a.size) := by
      rw [ByteArray.extract_append, Nat.zero_sub]
    have hroom : n - (written.size + a.size) = n - written.size - a.size := by omega
    simp only [write, ByteArray.size_append]
    by_cases ha : a.size ≤ n - written.size
    · have hfits : a.size + b.size ≤ n - written.size ↔ b.size ≤ n - written.size - a.size := by
        omega
      simp only [ha, hfits, hpart, hroom, extract_eq_self, if_true, ByteArray.size_append,
        ByteArray.append_assoc]
    · have hab : ¬ a.size + b.size ≤ n - written.size := by omega
      have hnone : n - written.size - a.size = 0 := by omega
      simp only [ha, hab, hpart, hnone, if_false, ByteArray.extract_same, ByteArray.append_empty]

private theorem write_empty (s : Sink) : s.write .empty = (.ok (), s) := by
  obtain ⟨limit, written⟩ := s
  cases limit with
  | none => simp [write]
  | some n => simp [write]

private theorem writeText_append (s : Sink) (a b : String) :
    s.writeText (a ++ b) =
      match s.writeText a with
      | (.error e, s') => (.error e, s')
      | (.ok (), s') => s'.writeText b := by
  rw [writeText, toUTF8_append, write_append]
  rfl

/-- Writes pieces until one is refused. -/
def writePieces (s : Sink) : List (List Char) → Except FileError Unit × Sink
  | [] => (.ok (), s)
  | piece :: pieces =>
    match s.writeText (String.ofList piece) with
    | (.error e, s') => (.error e, s')
    | (.ok (), s') => s'.writePieces pieces

private theorem writePieces_eq (s : Sink) (pieces : List (List Char)) :
    s.writePieces pieces = s.writeText (String.ofList pieces.flatten) := by
  induction pieces generalizing s with
  | nil => exact (write_empty s).symm
  | cons piece pieces ih =>
    rw [writePieces, List.flatten_cons, String.ofList_append, writeText_append]
    split <;> rename_i s' hs
    · rfl
    · exact ih s'

section
variable {limit : Nat} {written bytes : ByteArray}

private theorem write_of_le (h : bytes.size ≤ limit - written.size) :
    Sink.write ⟨some limit, written⟩ bytes = (.ok (), ⟨some limit, written ++ bytes⟩) :=
  if_pos h

private theorem write_of_gt (h : limit - written.size < bytes.size) :
    Sink.write ⟨some limit, written⟩ bytes =
      (.error .outputFull, ⟨some limit, written ++ bytes.extract 0 (limit - written.size)⟩) :=
  if_neg (Nat.not_le.mpr h)

private theorem snd_write_empty (limit : Nat) (bytes : ByteArray) :
    (Sink.write ⟨some limit, .empty⟩ bytes).2 =
      ⟨some limit, bytes.extract 0 (min limit bytes.size)⟩ := by
  rcases Nat.lt_or_ge limit bytes.size with hfull | hfits
  · rw [write_of_gt hfull, Nat.min_eq_left (Nat.le_of_lt hfull), ByteArray.empty_append]
    rfl
  · rw [write_of_le hfits, Nat.min_eq_right hfits, ByteArray.empty_append,
      ByteArray.extract_zero_size]

end

end Sink

/-! ## Runs -/

namespace Phase

/-- Writes a document in the pieces of a printer, and a line break. -/
def emitPieces (printer : Printer) (v : Value) (out : Sink) : Except PhaseError Unit × Sink :=
  match out.writePieces (printer.pieces v) with
  | (.error e, out) => (.error (.document e), out)
  | (.ok (), out) =>
    match out.writeText "\n" with
    | (.error e, out) => (.error (.stream e), out)
    | (.ok (), out) => (.ok (), out)

/-- Runs a phase that hands its document over in pieces. -/
def runPieces (printer : Printer) (p : Phase) (input : Except FileError ByteArray) (out : Sink) :
    Except PhaseError Unit × Sink :=
  match p.result input with
  | .error e => (.error e, out)
  | .ok ps => emitPieces printer (packagesJson ps) out

private theorem runPieces_eq_run (p : Phase) (printer : Printer)
    (input : Except FileError ByteArray)
    (out : Sink) : p.runPieces printer input out = p.run input out := by
  have hemit (v : Value) : emitPieces printer v out = emit v out := by
    rw [emitPieces, Sink.writePieces_eq, printer.flatten_pieces]
    rfl
  rw [runPieces, run]
  cases p.result input with
  | error e => rfl
  | ok ps => exact hemit (packagesJson ps)

/-- The packages that a phase makes of an input. -/
inductive Makes (src : Source) : Phase → List Package → Prop
  | convert {text : String} {s : Schema} {ps : List Package} (hold : src.Holds text)
      (hread : Schema.read.document? text = some s) (hmade : s.packages = .ok ps) :
      Makes src convert ps
  | prune {text : String} {ps kept : List Package} {used : KeyMap Unit} (hold : src.Holds text)
      (hread : (Reader.list Package.read).document? text = some ps)
      (hmade : SchemaDocs.prune ps = .ok (kept, used)) : Makes src prune kept

/-- Why a phase makes nothing of an input. -/
inductive Refuses (src : Source) : Phase → PhaseError → Prop
  | broken {p : Phase} (h : src.Broken) : Refuses src p (.stream .inputBroken)
  | notText {p : Phase} (h : ¬ src.Broken) (hbytes : ∀ text : String, src.bytes ≠ text.toUTF8) :
      Refuses src p (.stream .notText)
  | noSchema {text : String} (hold : src.Holds text)
      (hread : Schema.read.document? text = none) : Refuses src convert .malformed
  | noPackages {text : String} (hold : src.Holds text)
      (hread : (Reader.list Package.read).document? text = none) : Refuses src prune .malformed
  | conversion {text : String} {s : Schema} {e : ConversionError} (hold : src.Holds text)
      (hread : Schema.read.document? text = some s) (hfail : s.packages = .error e) :
      Refuses src convert (.conversion e)
  | resolution {text : String} {ps : List Package} {e : ResolutionError} (hold : src.Holds text)
      (hread : (Reader.list Package.read).document? text = some ps)
      (hfail : SchemaDocs.prune ps = .error e) : Refuses src prune (.resolution e)

section
variable {p : Phase} {src : Source} {text : String} {ps : List Package} {e : PhaseError}

private theorem result_of_holds (hold : src.Holds text) : p.result src.readAll = p.apply text := by
  rw [Source.readAll_eq_ok_iff.mpr ⟨hold.whole, hold.bytes⟩, result_toUTF8]

private theorem result_of_makes (h : Makes src p ps) : p.result src.readAll = .ok ps := by
  cases h with
  | convert hold hread hmade =>
    rw [result_of_holds hold, apply, convertText, hread]
    exact mapError_eq_ok_iff.mpr hmade
  | prune hold hread hmade =>
    rw [result_of_holds hold, apply, pruneText, hread]
    dsimp only
    rw [hmade]
    rfl

private theorem result_of_refuses (h : Refuses src p e) : p.result src.readAll = .error e := by
  cases h with
  | broken h =>
    rw [result, Source.readAll_eq_error_iff.mpr ⟨h, rfl⟩]
    rfl
  | notText h hbytes =>
    rw [result, Source.readAll_eq_ok_iff.mpr ⟨h, rfl⟩, Except.bind,
      decodeText_eq_error hbytes]
  | noSchema hold hread => rw [result_of_holds hold, apply, convertText, hread]
  | noPackages hold hread => rw [result_of_holds hold, apply, pruneText, hread]
  | conversion hold hread hfail =>
    rw [result_of_holds hold, apply, convertText, hread]
    dsimp only
    rw [hfail]
    rfl
  | resolution hold hread hfail =>
    rw [result_of_holds hold, apply, pruneText, hread]
    dsimp only
    rw [hfail]
    rfl

private theorem refuses_or_makes_of_holds (p : Phase) (hold : src.Holds text) :
    (∃ e, Refuses src p e) ∨ ∃ ps, Makes src p ps := by
  cases p with
  | convert =>
    cases hread : Schema.read.document? text with
    | none => exact .inl ⟨_, .noSchema hold hread⟩
    | some s =>
      cases hmade : s.packages with
      | error e => exact .inl ⟨_, .conversion hold hread hmade⟩
      | ok ps => exact .inr ⟨_, .convert hold hread hmade⟩
  | prune =>
    cases hread : (Reader.list Package.read).document? text with
    | none => exact .inl ⟨_, .noPackages hold hread⟩
    | some ps =>
      cases hmade : SchemaDocs.prune ps with
      | error e => exact .inl ⟨_, .resolution hold hread hmade⟩
      | ok pruned => exact .inr ⟨_, .prune hold hread hmade⟩

end

private theorem refuses_or_makes (p : Phase) (src : Source) :
    (∃ e, Refuses src p e) ∨ ∃ ps, Makes src p ps := by
  by_cases hbroken : src.Broken
  · exact .inl ⟨_, .broken hbroken⟩
  · by_cases htext : ∃ text : String, src.bytes = text.toUTF8
    · obtain ⟨text, hbytes⟩ := htext
      exact refuses_or_makes_of_holds p ⟨hbroken, hbytes⟩
    · exact .inl ⟨_, .notText hbroken fun text hbytes => htext ⟨text, hbytes⟩⟩

/-- What an output that takes a limited number of bytes has of a document, and how the run ends. -/
structure Delivers (v : Value) (limit : Nat) (r : Except PhaseError Unit) (written : ByteArray) :
    Prop where
  written : written = (documentText v).toUTF8.extract 0 (min limit (documentText v).toUTF8.size)
  succeeds : r = .ok () ↔ (documentText v).toUTF8.size ≤ limit
  document : r = .error (.document .outputFull) ↔ limit < (prettyText v).toUTF8.size
  lineBreak : r = .error (.stream .outputFull) ↔ limit = (prettyText v).toUTF8.size

private theorem size_documentText (v : Value) :
    (documentText v).toUTF8.size = (prettyText v).toUTF8.size + 1 := by
  rw [toUTF8_documentText, ByteArray.size_append]
  rfl

private theorem extract_documentText (v : Value) :
    (documentText v).toUTF8.extract 0 (prettyText v).toUTF8.size = (prettyText v).toUTF8 := by
  rw [toUTF8_documentText, ByteArray.extract_append_size_left, ByteArray.extract_zero_size]

private theorem snd_emit (v : Value) (out : Sink) :
    (emit v out).2 = (out.writeText (documentText v)).2 := by
  rw [emit, documentText, Sink.writeText_append]
  rcases out.writeText (prettyText v) with ⟨e | ⟨⟩, between⟩
  · rfl
  · dsimp only
    rcases between.writeText "\n" with ⟨e | ⟨⟩, final⟩ <;> rfl

/-- How the run ends depends on what the output takes of the document and of the line break. -/
theorem fst_emit (v : Value) (limit : Nat) :
    (emit v ⟨some limit, .empty⟩).1 =
      if limit < (prettyText v).toUTF8.size then .error (.document .outputFull)
      else if limit = (prettyText v).toUTF8.size then .error (.stream .outputFull)
      else .ok () := by
  have hbreak : "\n".toUTF8.size = 1 := rfl
  rw [emit, Sink.writeText]
  rcases Nat.lt_or_ge limit (prettyText v).toUTF8.size with hfull | hfits
  · rw [Sink.write_of_gt hfull, if_pos hfull]
  · rw [Sink.write_of_le hfits, if_neg (Nat.not_lt.mpr hfits), ByteArray.empty_append]
    dsimp only
    rw [Sink.writeText]
    by_cases heq : limit = (prettyText v).toUTF8.size
    · rw [Sink.write_of_gt (by omega), if_pos heq]
    · rw [Sink.write_of_le (by omega), if_neg heq]

private theorem delivers_emit (v : Value) (limit : Nat) : ∃ r written,
    emit v ⟨some limit, .empty⟩ = (r, ⟨some limit, written⟩) ∧ Delivers v limit r written := by
  refine ⟨(emit v ⟨some limit, .empty⟩).1, _, Prod.ext rfl ((snd_emit v _).trans
    (Sink.snd_write_empty limit _)), ?_⟩
  rw [fst_emit]
  have hsize := size_documentText v
  constructor
  case written => rfl
  case succeeds => split_ifs <;> simp only [true_iff, false_iff] <;> omega
  case document =>
    split_ifs <;> simp only [Except.error.injEq, reduceCtorEq, true_iff, false_iff] <;> omega
  case lineBreak =>
    split_ifs <;> simp only [Except.error.injEq, reduceCtorEq, true_iff, false_iff] <;> omega

/-- An input that is refused leaves any output as it is. Of one that is not, the output has the
first bytes of the document, and the error tells how much of it is missing; in whatever pieces the
document is handed over. -/
theorem run_faulty (printer : Printer) (p : Phase) (src : Source) :
    (∀ out, p.runPieces printer src.readAll out = p.run src.readAll out) ∧
      ((∃ e, Refuses src p e) ∨ ∃ ps, Makes src p ps) ∧
      (∀ e, Refuses src p e → ∀ out, p.run src.readAll out = (.error e, out)) ∧
      ∀ ps, Makes src p ps →
        p.run src.readAll .unlimited =
          (.ok (), ⟨none, (documentText (packagesJson ps)).toUTF8⟩) ∧
        ∀ limit, ∃ r written,
          p.run src.readAll ⟨some limit, .empty⟩ = (r, ⟨some limit, written⟩) ∧
            Delivers (packagesJson ps) limit r written := by
  refine ⟨p.runPieces_eq_run printer _, refuses_or_makes p src, fun e h out => ?_, fun ps h => ?_⟩
  · rw [run, result_of_refuses h]
  · have hrun (out : Sink) : p.run src.readAll out = emit (packagesJson ps) out := by
      rw [run, result_of_makes h]
    refine ⟨?_, fun limit => ?_⟩
    · rw [hrun]
      exact emit_unlimited _
    · rw [hrun]
      exact delivers_emit _ limit

/-- An output with room for an empty package gets it without the last line break, and nothing of an
input that breaks off. -/
theorem run_faulty_chain :
    let src : Source := ⟨(documentText (packagesJson [Schema.chainPackage 0])).toUTF8, none⟩
    let broken : Source := ⟨src.bytes, some 1⟩
    let kept := [(Schema.chainPackage 0).restrict KeyMap.empty]
    let text := (prettyText (packagesJson kept)).toUTF8
    Makes src prune kept ∧
      prune.runPieces .walking src.readAll ⟨some text.size, .empty⟩ =
        (.error (.stream .outputFull), ⟨some text.size, text⟩) ∧
      Refuses broken prune (.stream .inputBroken) ∧
      prune.runPieces .walking broken.readAll .unlimited =
        (.error (.stream .inputBroken), .unlimited) := by
  intro src broken kept text
  have hsome : 1 ≤ src.bytes.size := by
    rw [size_documentText]
    exact Nat.le_add_left 1 _
  have hbroken : Refuses broken prune (.stream .inputBroken) := .broken ⟨1, rfl, hsome⟩
  have hmakes : Makes src prune kept := by
    refine .prune ⟨by simp [Source.Broken, src], rfl⟩ ?_ (prune_chain 0)
    rw [document?_documentText, Schema.nesting_chainPackage]
    rfl
  obtain ⟨hpieces, -, -, hdelivered⟩ := run_faulty .walking prune src
  obtain ⟨hpieces', -, hrefused, -⟩ := run_faulty .walking prune broken
  obtain ⟨r, written, hrun, hdelivers⟩ := (hdelivered _ hmakes).2 text.size
  have hwritten : written = text := by
    rw [hdelivers.written, size_documentText, Nat.min_eq_left (Nat.le_succ _),
      extract_documentText]
  refine ⟨hmakes, ?_, hbroken, ?_⟩
  · rw [hpieces, hrun, hdelivers.lineBreak.mpr rfl, hwritten]
  · rw [hpieces']
    exact hrefused _ hbroken _

end Phase
end SchemaDocs
