import SchemaDocs.Command
import SchemaDocs.Proofs.Site.Interruption

/-!
# A phase from a file to a file

A command opens its input, then makes its output empty, and only then reads the input and runs the
phase. So a file that is both is emptied before it is read, and the command fails on it whatever it
held; and where the phase fails, the output has been emptied already. Apart from that a command that
fails changes no file, and one that succeeds writes what the phase writes. Main statement:
`run_phase_atomic_iff`.
-/

namespace SchemaDocs

open Site (SameFiles)

variable {p : Phase} {input output : String} {m m' m₁ : Memory} {source target : Location}
  {r : Except String ByteArray}

namespace Phase

private theorem run_empty (p : Phase) (sink : Sink) :
    p.run (.ok ByteArray.empty) sink = (.error .malformed, sink) := by
  have hparse : Json.parse? "".toList = none := by cbv
  have hresult : p.result (.ok ByteArray.empty) = .error .malformed := by
    rw [show ByteArray.empty = "".toUTF8 from rfl, result_toUTF8]
    cases p with
    | convert =>
      rw [apply, convertText, Json.Reader.document?, hparse]
      rfl
    | prune =>
      rw [apply, pruneText, Json.Reader.document?, hparse]
      rfl
  rw [run, hresult]

end Phase

namespace Memory

private theorem get?_create (h : m.create output = .ok (target, m₁)) (l : Location) :
    m₁.get? l = if l = target then some (.file ByteArray.empty) else m.get? l := by
  obtain ⟨d, name, -, -, -, -, -, rfl, rfl⟩ := create_eq_ok h
  exact get?_put (by simp) l

private theorem readAt_create (h : m.create output = .ok (target, m₁)) (l : Location) :
    m₁.readAt l = if l = target then .ok ByteArray.empty else m.readAt l := by
  rw [readAt, readAt, get?_create h]
  by_cases hl : l = target
  · rw [if_pos hl, if_pos hl]
  · rw [if_neg hl, if_neg hl]

private theorem sameFiles_create_iff (h : m.create output = .ok (target, m₁)) :
    SameFiles m m₁ ↔ m.get? target = some (.file ByteArray.empty) := by
  constructor
  · intro hsame
    exact (hsame _ _).mp (by rw [get?_create h, if_pos rfl])
  · intro hempty l content
    rw [get?_create h]
    by_cases hl : l = target
    · rw [if_pos hl, hl, hempty]
    · rw [if_neg hl]

end Memory

namespace Command

/-- How a phase from a file to a file ends. -/
inductive Ends (p : Phase) (input output : String) (m : Memory) :
    Except String ByteArray → Memory → Prop
  | unopened {e : FileError} : m.locate input = .error e →
      Ends p input output m (.error ("failed to open " ++ input)) m
  | unmade {source : Location} {e : FileError} : m.locate input = .ok source →
      m.create output = .error e →
      Ends p input output m (.error ("failed to create " ++ output)) m
  /-- Input and output are one file, which is empty when it is read. -/
  | emptied {target : Location} {m₁ : Memory} : m.locate input = .ok target →
      m.create output = .ok (target, m₁) →
      Ends p input output m (.error PhaseError.malformed.message) m₁
  /-- The input cannot be read, or the phase fails on it. -/
  | refused {source target : Location} {m₁ : Memory} {e : PhaseError} {out : Sink} :
      m.locate input = .ok source → m.create output = .ok (target, m₁) → source ≠ target →
      p.run (m.readAt source) .unlimited = (.error e, out) →
      Ends p input output m (.error e.message) m₁
  | written {source target : Location} {m₁ : Memory} {out : Sink} :
      m.locate input = .ok source → m.create output = .ok (target, m₁) → source ≠ target →
      p.run (m.readAt source) .unlimited = (.ok (), out) →
      Ends p input output m (.ok .empty) (m₁.put target (.file out.written))

private theorem run_inputHandle (input : String) (m : Memory) :
    (inputHandle (some input) : StateM Memory _).run m =
      match m.locate input with
      | .error _ => (.error ("failed to open " ++ input), m)
      | .ok source => (.ok (some source), m) := by
  have hopen : (Disk.openFile input : StateM Memory _).run m = (m.locate input, m) := rfl
  rw [inputHandle, Disk.run_bind, hopen]
  cases m.locate input with
  | error e => rfl
  | ok source => rfl

private theorem run_outputHandle (output : String) (m : Memory) :
    (outputHandle (some output) : StateM Memory _).run m =
      match m.create output with
      | .error _ => (.error ("failed to create " ++ output), m)
      | .ok (target, m₁) => (.ok (some target), m₁) := by
  rw [outputHandle, Disk.run_bind, Site.run_create]
  cases m.create output with
  | error e => rfl
  | ok made => rfl

/-- All that a phase from a file to a file does. -/
theorem run_phase (p : Phase) (stdin : StateM Memory (Except FileError ByteArray))
    (input output : String) (m : Memory) :
    (run stdin (.phase p (some input) (some output)) : StateM Memory _).run m =
      match m.locate input with
      | .error _ => (.error ("failed to open " ++ input), m)
      | .ok source =>
        match m.create output with
        | .error _ => (.error ("failed to create " ++ output), m)
        | .ok (target, m₁) =>
          match p.run (m₁.readAt source) .unlimited with
          | (.error e, _) => (.error e.message, m₁)
          | (.ok (), out) => (.ok .empty, m₁.put target (.file out.written)) := by
  change (runPhase p stdin (some input) (some output)).run m = _
  rw [runPhase, Disk.run_andThen, run_inputHandle]
  cases m.locate input with
  | error e => rfl
  | ok source =>
    dsimp only
    rw [Disk.run_andThen, run_outputHandle]
    cases m.create output with
    | error e => rfl
    | ok made =>
      obtain ⟨target, m₁⟩ := made
      dsimp only
      have hread : (Disk.read source : StateM Memory _).run m₁ = (m₁.readAt source, m₁) := rfl
      rw [Disk.run_bind, hread]
      dsimp only
      rcases p.run (m₁.readAt source) .unlimited with ⟨_ | _, out⟩
      · rfl
      · rfl

private theorem ends_of_run {stdin : StateM Memory (Except FileError ByteArray)}
    (h : (run stdin (.phase p (some input) (some output)) : StateM Memory _).run m = (r, m')) :
    Ends p input output m r m' := by
  rw [run_phase] at h
  cases hopen : m.locate input with
  | error e =>
    rw [hopen] at h
    cases h
    exact .unopened hopen
  | ok source =>
    cases hcreate : m.create output with
    | error e =>
      rw [hopen, hcreate] at h
      cases h
      exact .unmade hopen hcreate
    | ok made =>
      obtain ⟨target, m₁⟩ := made
      rw [hopen, hcreate] at h
      dsimp only at h
      rw [Memory.readAt_create hcreate] at h
      by_cases hsame : source = target
      · subst hsame
        rw [if_pos rfl, Phase.run_empty] at h
        cases h
        exact .emptied hopen hcreate
      · rw [if_neg hsame] at h
        rcases hrun : p.run (m.readAt source) .unlimited with ⟨_ | _, out⟩
        · rw [hrun] at h
          cases h
          exact .refused hopen hcreate hsame hrun
        · rw [hrun] at h
          cases h
          exact .written hopen hcreate hsame hrun

/-- A command succeeds, and its output path leads to a file with the given content; every other
place is as it was. -/
structure Stores (output : String) (content : ByteArray) (m : Memory) (r : Except String ByteArray)
    (m' : Memory) : Prop where
  succeeds : r = .ok ByteArray.empty
  stored : ∃ target, m'.locate output = .ok target ∧ m'.readAt target = .ok content ∧
    ∀ l, l ≠ target → m'.get? l = m.get? l

private theorem stores_put (h : m.create output = .ok (target, m₁)) (content : ByteArray) :
    Stores output content m (.ok ByteArray.empty) (m₁.put target (.file content)) := by
  have hlocate := Memory.locate_of_create h content
  obtain ⟨d, name, -, -, -, -, -, htarget, -⟩ := Memory.create_eq_ok h
  have hne : target ≠ [] := by simp [htarget]
  refine ⟨rfl, target, hlocate, ?_, fun l hl => ?_⟩
  · rw [Memory.readAt, Memory.get?_put hne, if_pos rfl]
  · rw [Memory.get?_put hne, if_neg hl, Memory.get?_create h, if_neg hl]

/-- Where the phase succeeds on what the input holds at first, the command stores what the phase
writes. -/
theorem Ends.stores_iff (h : Ends p input output m r m') (hopen : m.locate input = .ok source)
    (hcreate : m.create output = .ok (target, m₁)) {out : Sink}
    (hrun : p.run (m.readAt source) .unlimited = (.ok (), out)) :
    Stores output out.written m r m' ↔ source ≠ target := by
  cases h with
  | unopened hopen' =>
    rw [hopen] at hopen'
    cases hopen'
  | unmade _ hcreate' =>
    rw [hcreate] at hcreate'
    cases hcreate'
  | emptied hopen' hcreate' =>
    rw [hopen] at hopen'
    rw [hcreate] at hcreate'
    cases hopen'
    cases hcreate'
    exact iff_of_false (fun hstores => by cases hstores.succeeds) (fun hne => hne rfl)
  | refused hopen' _ _ hrun' =>
    rw [hopen] at hopen'
    cases hopen'
    rw [hrun] at hrun'
    cases hrun'
  | written hopen' hcreate' hne hrun' =>
    rw [hopen] at hopen'
    rw [hcreate] at hcreate'
    cases hopen'
    cases hcreate'
    rw [hrun] at hrun'
    cases hrun'
    exact iff_of_true (stores_put hcreate _) hne

/-- A command that fails leaves files as they were, unless it has emptied its output. -/
theorem Ends.sameFiles_iff {e : String} (h : Ends p input output m (.error e) m') :
    SameFiles m m' ↔ ∀ source target m₁, m.locate input = .ok source →
      m.create output = .ok (target, m₁) → m.get? target = some (.file ByteArray.empty) := by
  have hmade {source target : Location} {m₁ : Memory} (hopen : m.locate input = .ok source)
      (hcreate : m.create output = .ok (target, m₁)) : SameFiles m m₁ ↔
      ∀ source target m₁, m.locate input = .ok source → m.create output = .ok (target, m₁) →
        m.get? target = some (.file ByteArray.empty) := by
    rw [Memory.sameFiles_create_iff hcreate]
    constructor
    · intro hempty _ _ _ _ hcreate'
      rw [hcreate] at hcreate'
      cases hcreate'
      exact hempty
    · intro hall
      exact hall _ _ _ hopen hcreate
  cases h with
  | unopened hopen =>
    refine iff_of_true (fun _ _ => Iff.rfl) fun _ _ _ hopen' => ?_
    rw [hopen] at hopen'
    cases hopen'
  | unmade _ hcreate =>
    refine iff_of_true (fun _ _ => Iff.rfl) fun _ _ _ _ hcreate' => ?_
    rw [hcreate] at hcreate'
    cases hcreate'
  | emptied hopen hcreate => exact hmade hopen hcreate
  | refused hopen hcreate _ _ => exact hmade hopen hcreate

/-- What a phase from a file to a file does to files. Where the phase succeeds on what the input
holds and the output can be made, the command stores what the phase writes exactly if input and
output are different files. A command that fails changes no file exactly if it could not open its
input or make its output, or if an empty file stood where the output is. -/
theorem run_phase_atomic_iff {stdin : StateM Memory (Except FileError ByteArray)}
    (h : (run stdin (.phase p (some input) (some output)) : StateM Memory _).run m = (r, m')) :
    Ends p input output m r m' ∧
    (∀ source target m₁ out, m.locate input = .ok source → m.create output = .ok (target, m₁) →
      p.run (m.readAt source) .unlimited = (.ok (), out) →
      (Stores output out.written m r m' ↔ source ≠ target)) ∧
    ∀ e, r = .error e → (SameFiles m m' ↔ ∀ source target m₁, m.locate input = .ok source →
      m.create output = .ok (target, m₁) → m.get? target = some (.file ByteArray.empty)) := by
  have hends := ends_of_run h
  refine ⟨hends, fun source target m₁ out hopen hcreate hrun => ?_, fun e he => ?_⟩
  · exact hends.stores_iff hopen hcreate hrun
  · subst he
    exact hends.sameFiles_iff

/-- A working directory with a schema in it that has no files. -/
def schemaMemory : Memory :=
  ⟨[(["home"], .directory),
    (["home", "in.json"], .file (prettyText (Schema.mk []).toJson).toUTF8)], ["home"]⟩

/-- The list of no packages, as a document. -/
def noPackages : ByteArray := (Phase.documentText (packagesJson [])).toUTF8

private theorem run_convert_schemaMemory :
    Phase.convert.run (schemaMemory.readAt ["home", "in.json"]) .unlimited =
      (.ok (), ⟨none, noPackages⟩) := by
  have hread : schemaMemory.readAt ["home", "in.json"] =
      .ok (prettyText (Schema.mk []).toJson).toUTF8 := rfl
  rw [hread, Phase.run, Phase.result_convert_toJson (by decide), Site.packages_empty]
  exact Phase.emit_unlimited _

/-- Conversion into another file. -/
theorem run_phase_atomic_convert : ∃ r m',
    (run (pure (.ok .empty)) (.phase .convert (some "in.json") (some "out.json")) :
      StateM Memory _).run schemaMemory = (r, m') ∧
    Stores "out.json" noPackages schemaMemory r m' := by
  obtain ⟨-, hstores, -⟩ := @run_phase_atomic_iff .convert "in.json" "out.json" schemaMemory _ _
    (pure (.ok .empty)) rfl
  exact ⟨_, _, rfl, (hstores _ _ _ _ rfl rfl run_convert_schemaMemory).mpr (by decide)⟩

/-- Conversion of a file into itself: it fails although the file holds a schema, and empties it. -/
theorem run_phase_same_file : ∃ m₁ m',
    schemaMemory.locate "in.json" = .ok ["home", "in.json"] ∧
    schemaMemory.create "in.json" = .ok (["home", "in.json"], m₁) ∧
    Phase.convert.run (schemaMemory.readAt ["home", "in.json"]) .unlimited =
      (.ok (), ⟨none, noPackages⟩) ∧
    (run (pure (.ok .empty)) (.phase .convert (some "in.json") (some "in.json")) :
      StateM Memory _).run schemaMemory = (.error "failed to deserialize input", m') ∧
    m'.readAt ["home", "in.json"] = .ok .empty ∧ ¬ SameFiles schemaMemory m' := by
  let m₁ := schemaMemory.put ["home", "in.json"] (.file ByteArray.empty)
  have hopen : schemaMemory.locate "in.json" = .ok ["home", "in.json"] := rfl
  have hcreate : schemaMemory.create "in.json" = .ok (["home", "in.json"], m₁) := rfl
  refine ⟨m₁, m₁, hopen, hcreate, run_convert_schemaMemory, ?_, rfl, fun hsame => ?_⟩
  · rw [run_phase, hopen, hcreate]
    dsimp only
    rw [Memory.readAt_create hcreate, if_pos rfl, Phase.run_empty]
    rfl
  · have hempty := (Memory.sameFiles_create_iff hcreate).mp hsame
    have hconvert := run_convert_schemaMemory
    rw [Memory.readAt, hempty] at hconvert
    dsimp only at hconvert
    rw [Phase.run_empty] at hconvert
    cases hconvert

end Command
end SchemaDocs
