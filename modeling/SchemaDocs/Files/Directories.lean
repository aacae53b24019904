import SchemaDocs.Files.Error
import SchemaDocs.Files.Path

/-!
# Making directories

The directory of a path is made after those above it. This is the same in every file system that can
make one directory and tell whether a path leads to one.
-/

namespace SchemaDocs

variable {σ : Type} (createDir : σ → String → Except FileError σ)
  (isDirectory : σ → String → Bool)

/-- Makes a directory and those above it that are missing, at most `depth` of them. What was made
before an error stays. -/
def makeDirsWithin (s : σ) (path : String) : Nat → Except FileError Unit × σ
  | 0 => (.ok (), s)
  | depth + 1 =>
    if path = "" then (.ok (), s)
    else
      match createDir s path with
      | .ok s => (.ok (), s)
      | .error .notFound =>
        match Path.parent? path with
        | none => (.error .notFound, s)
        | some parent =>
          match makeDirsWithin s parent depth with
          | (.error e, s) => (.error e, s)
          | (.ok (), s) =>
            match createDir s path with
            | .ok s => (.ok (), s)
            | .error e => if isDirectory s path then (.ok (), s) else (.error e, s)
      | .error e => if isDirectory s path then (.ok (), s) else (.error e, s)

/-- Makes a directory and those above it that are missing. -/
def makeDirs (s : σ) (path : String) : Except FileError Unit × σ :=
  makeDirsWithin createDir isDirectory s path (path.length + 1)

end SchemaDocs
