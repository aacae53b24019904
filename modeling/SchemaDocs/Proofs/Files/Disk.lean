import SchemaDocs.Files.Disk

/-!
# Runs on a disk

A run that works on a state goes step by step: each step starts from the state that the one before
it left.
-/

namespace SchemaDocs.Disk

variable {σ α β ε : Type}

-- Unlike `StateT.run_bind`, this leaves no bind of the identity monad behind.
theorem run_bind (x : StateM σ α) (f : α → StateM σ β) (s : σ) :
    (x >>= f).run s = (f (x.run s).1).run (x.run s).2 := rfl

theorem run_andThen (x : StateM σ (Except ε α)) (f : α → StateM σ (Except ε β)) (s : σ) :
    (andThen x f).run s =
      match x.run s with
      | (.error e, s') => (.error e, s')
      | (.ok a, s') => (f a).run s' := by
  rw [andThen, run_bind]
  rcases x.run s with ⟨_ | _, s'⟩
  · rfl
  · rfl

end SchemaDocs.Disk
