import SchemaDocs.Files.Directories
import SchemaDocs.Proofs.Files.Path

/-!
# Directories above a path

Making the directories of a path makes single directories, each on the way of the path. Main
statements: `makeDirs_rel`, `makeDirs_alike`.
-/

namespace SchemaDocs

/-- A path that starts where another one does and has the first of its names. -/
def Path.Above (q path : String) : Prop :=
  isAbsolute q = isAbsolute path ∧ names q <+: names path

section
variable {σ : Type} {createDir : σ → String → Except FileError σ}
  {isDirectory : σ → String → Bool} {r : σ → σ → Prop} {path : String}
  (hrefl : ∀ s, r s s) (htrans : ∀ s s' s'', r s s' → r s' s'' → r s s'')
  (hmake : ∀ q s s', Path.Above q path → createDir s q = .ok s' → r s s')
include hrefl htrans hmake

theorem makeDirsWithin_rel {q : String} (hq : Path.Above q path) (depth : Nat) (s : σ) :
    r s (makeDirsWithin createDir isDirectory s q depth).2 := by
  induction depth generalizing q s with
  | zero => exact hrefl s
  | succ depth ih =>
    rw [makeDirsWithin]
    split
    · exact hrefl s
    · split
      · rename_i s₁ hcreate
        exact hmake q s s₁ hq hcreate
      · split
        · exact hrefl s
        · rename_i parent hparent
          obtain ⟨hstart, hnames⟩ := Path.names_parent?_prefix hparent
          have habove := ih ⟨hstart.trans hq.1, hnames.trans hq.2⟩ s
          split
          · rename_i e s₁ hrun
            rwa [hrun] at habove
          · rename_i s₁ hrun
            rw [hrun] at habove
            split
            · rename_i s₂ hcreate
              exact htrans _ _ _ habove (hmake q s₁ s₂ hq hcreate)
            · split
              · exact habove
              · exact habove
      · split
        · exact hrefl s
        · exact hrefl s

/-- What holds of making one directory on the way holds of making them all. -/
theorem makeDirs_rel (s : σ) : r s (makeDirs createDir isDirectory s path).2 :=
  makeDirsWithin_rel hrefl htrans hmake ⟨rfl, List.prefix_refl _⟩ _ s

end

/-! ## Two file systems -/

section
variable {σ τ ε α β : Type}

/-- Two computations end alike: with the same error, or with results in a relation. -/
inductive EndAlike (r : α → β → Prop) : Except ε α → Except ε β → Prop
  | error (e : ε) : EndAlike r (.error e) (.error e)
  | ok {a : α} {b : β} : r a b → EndAlike r (.ok a) (.ok b)

/-- Two runs give the same and leave states in a relation. -/
structure RunAlike (r : σ → τ → Prop) (x : α × σ) (y : α × τ) : Prop where
  result : x.1 = y.1
  state : r x.2 y.2

variable {r : σ → τ → Prop} {createDir : σ → String → Except FileError σ}
  {isDirectory : σ → String → Bool} {createDir' : τ → String → Except FileError τ}
  {isDirectory' : τ → String → Bool}
  (hmake : ∀ {s t} path, r s t → EndAlike r (createDir s path) (createDir' t path))
  (hdirectory : ∀ {s t} path, r s t → isDirectory s path = isDirectory' t path)
include hmake hdirectory

private theorem makeDirsWithin_alike {s : σ} {t : τ} (h : r s t) (path : String) (depth : Nat) :
    RunAlike r (makeDirsWithin createDir isDirectory s path depth)
      (makeDirsWithin createDir' isDirectory' t path depth) := by
  have hthere {s : σ} {t : τ} (h : r s t) (path : String) (e : FileError) :
      RunAlike r (if isDirectory s path then (Except.ok (), s) else (.error e, s))
        (if isDirectory' t path then (Except.ok (), t) else (.error e, t)) := by
    rw [hdirectory path h]
    split
    · exact ⟨rfl, h⟩
    · exact ⟨rfl, h⟩
  induction depth generalizing s t path with
  | zero => exact ⟨rfl, h⟩
  | succ depth ih =>
    rw [makeDirsWithin, makeDirsWithin]
    by_cases hempty : path = ""
    · rw [if_pos hempty, if_pos hempty]
      exact ⟨rfl, h⟩
    rw [if_neg hempty, if_neg hempty]
    have hmade := hmake path h
    generalize createDir s path = made, createDir' t path = made' at hmade
    cases hmade with
    | ok h' => exact ⟨rfl, h'⟩
    | error e =>
      cases e
      case notFound =>
        cases Path.parent? path with
        | none => exact ⟨rfl, h⟩
        | some parent =>
          have habove := ih h parent
          dsimp only
          generalize makeDirsWithin createDir isDirectory s parent depth = x,
            makeDirsWithin createDir' isDirectory' t parent depth = y at habove
          obtain ⟨result, s₁⟩ := x
          obtain ⟨_, t₁⟩ := y
          obtain ⟨rfl, hstate⟩ := habove
          cases result with
          | error e => exact ⟨rfl, hstate⟩
          | ok =>
            have hmade := hmake path hstate
            dsimp only
            generalize createDir s₁ path = made, createDir' t₁ path = made' at hmade
            cases hmade with
            | ok h' => exact ⟨rfl, h'⟩
            | error e => exact hthere hstate path e
      all_goals exact hthere h path _

/-- Making directories goes alike where making one does. -/
theorem makeDirs_alike {s : σ} {t : τ} (h : r s t) (path : String) :
    RunAlike r (makeDirs createDir isDirectory s path) (makeDirs createDir' isDirectory' t path) :=
  makeDirsWithin_alike hmake hdirectory h path _

end

end SchemaDocs
