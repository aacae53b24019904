import SchemaDocs.KeyMap
import SchemaDocs.Toml.Number
import SchemaDocs.Toml.Table

/-!
# TOML documents

Version 1.0 of the format, with bounds on the nesting of values and the length of paths. A mark of
byte order at the start is skipped.
-/

namespace SchemaDocs.Toml

/-- The greatest nesting of arrays and inline tables, and the greatest length of a path. -/
def maxNesting : Nat := 79

def word? : List Char → Option (Value × List Char)
  | 't' :: 'r' :: 'u' :: 'e' :: s => some (.boolean true, s)
  | 'f' :: 'a' :: 'l' :: 's' :: 'e' :: s => some (.boolean false, s)
  | _ => none

/-- A path of keys, split at its last, and what follows it. -/
def target? (s : List Char) : Option (List String × String × List Char) := do
  let (path, s) ← path? maxNesting s
  return (path.dropLast, ← path.getLast?, s)

mutual

/-- A value that may open `depth` arrays and inline tables inside each other. Each step spends one
unit of `fuel` on at least one character. -/
def value? (fuel depth : Nat) (s : List Char) : Option (Value × List Char) :=
  match fuel, s with
  | 0, _ => none
  | fuel + 1, '[' :: s =>
    match depth with
    | 0 => none
    | depth + 1 => (items? fuel depth s).map fun (vs, s) => (.array vs, s)
  | fuel + 1, '\x7b' :: s =>
    match depth with
    | 0 => none
    | depth + 1 => do
      let (t, s) ←
        match skipBlank s with
        | '\x7d' :: s => some (Draft.empty, s)
        | s => pairs? fuel depth Draft.empty s
      return (.table t.finish, s)
  | _ + 1, s =>
    (string? s).map (fun (t, s) => (Value.string (String.ofList t), s)) |>.or <|
      (word? s).or (number? s)

/-- The items of an array up to its end; a comma may follow the last. -/
def items? (fuel depth : Nat) (s : List Char) : Option (List Value × List Char) :=
  match fuel with
  | 0 => none
  | fuel + 1 => do
    match ← skipLines? false s with
    | ']' :: s => return ([], s)
    | s =>
      let (v, s) ← value? fuel depth s
      match ← skipLines? false s with
      | ',' :: s => do
        let (vs, s) ← items? fuel depth s
        return (v :: vs, s)
      | ']' :: s => return ([v], s)
      | _ => none

/-- The pairs of an inline table up to its end, added to a table. -/
def pairs? (fuel depth : Nat) (t : Draft) (s : List Char) : Option (Draft × List Char) :=
  match fuel with
  | 0 => none
  | fuel + 1 => do
    let (path, key, s) ← target? s
    let (v, s) ← value? fuel depth (skipBlank (← mark? '=' s))
    let t ← t.addValue path key v
    match skipBlank s with
    | ',' :: s => pairs? fuel depth t s
    | '\x7d' :: s => return (t, s)
    | _ => none

end

/-- A document under construction, and the path of the table that lines add to. -/
structure Progress where
  root : Draft
  here : List String

/-- One line that is neither blank nor a comment. -/
def line? (p : Progress) (s : List Char) : Option (Progress × List Char) := do
  match s with
  | '[' :: '[' :: s =>
    let (path, key, s) ← target? s
    let s ← endOfLine? (← mark? ']' (← mark? ']' s))
    return (⟨← p.root.append path key, path ++ [key]⟩, s)
  | '[' :: s =>
    let (path, key, s) ← target? s
    let s ← endOfLine? (← mark? ']' s)
    return (⟨← p.root.define path key, path ++ [key]⟩, s)
  | s =>
    let (path, key, s) ← target? s
    let s ← mark? '=' s
    let (v, s) ← value? (s.length + 1) maxNesting (skipBlank s)
    let s ← endOfLine? s
    return (⟨← p.root.alter false (·.addValue path key v) p.here, p.here⟩, s)

/-- All lines of a document, of which `fuel` is more than the number. -/
def lines? (fuel : Nat) (p : Progress) (s : List Char) : Option Progress :=
  match fuel, skipBlank s with
  | 0, _ => none
  | _ + 1, [] => some p
  | fuel + 1, '#' :: s => do lines? fuel p (← endOfLine? ('#' :: s))
  | fuel + 1, s =>
    match newline? s with
    | some s => lines? fuel p s
    | none => do
      let (p, s) ← line? p s
      lines? fuel p s

/-- The table that a document states. -/
def parse? (s : List Char) : Option (KeyMap Value) := do
  let s :=
    match s with
    | '\ufeff' :: s => s
    | s => s
  let p ← lines? (s.length + 1) ⟨Draft.empty, []⟩ s
  return KeyMap.ofList p.root.finish

end SchemaDocs.Toml
