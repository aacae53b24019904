/-!
# Paths

Paths are texts; names are joined by slashes. Joining keeps what it is given: `.` and `..` stay in
the text, and an absolute path replaces what goes before it.
-/

namespace SchemaDocs.Path

def isAbsolute (path : String) : Bool := path.toList.head? == some '/'

def endsInSlash (path : String) : Bool := path.toList.getLast? == some '/'

def join (dir path : String) : String :=
  if isAbsolute path ∨ dir = "" then path
  else if endsInSlash dir then dir ++ path
  else dir ++ "/" ++ path

/-- The names of a path in order, `.` and `..` among them. -/
def names (path : String) : List String :=
  ((path.toList.splitOn '/').filter (· ≠ [])).map String.ofList

/-- Drops what has no meaning at the end of a path, whose pieces are given from the last to the
first: empty pieces, and `.` except as the first piece of all. -/
def dropEmpty : List (List Char) → List (List Char)
  | [] => []
  | piece :: before =>
    if piece = [] ∨ (piece = ['.'] ∧ before ≠ []) then dropEmpty before else piece :: before

/-- The path without its last name, if it has one. -/
def parent? (path : String) : Option String :=
  let absolute := isAbsolute path
  let body := (if absolute then path.toList.drop 1 else path.toList).splitOn '/'
  let pieces := dropEmpty (if absolute then body.reverse ++ [[]] else body.reverse)
  match pieces with
  | [] => none
  | _ :: before =>
    let rest := ['/'].intercalate (dropEmpty before).reverse
    some (String.ofList (if absolute ∧ rest = [] then ['/'] else rest))

end SchemaDocs.Path
