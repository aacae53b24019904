import SchemaDocs.Toml.Value

/-!
# Tables under construction

A table remembers how it came to be: implied by a longer path, or written with dotted keys. A header
may define a table once, and take up one that was only implied; dotted keys may add to no table
that a header defined; and nothing adds to a value that is complete.
-/

namespace SchemaDocs.Toml

mutual

inductive Item where
  | value (v : Value)
  | table (t : Draft)
  /-- The tables of an array that headers add to. -/
  | tables (ts : List Draft)

/-- A table under construction. -/
inductive Draft where
  | mk (implied dotted : Bool) (entries : List (String × Item))

end

namespace Draft

def empty : Draft := mk false false []

def isImplied : Draft → Bool
  | mk i _ _ => i

def isDotted : Draft → Bool
  | mk _ d _ => d

def entries : Draft → List (String × Item)
  | mk _ _ es => es

def get? (t : Draft) (key : String) : Option Item := t.entries.lookup key

/-- Sets an entry, in place of the one with its key. -/
def set (t : Draft) (key : String) (item : Item) : Draft :=
  mk t.isImplied t.isDotted ((key, item) :: t.entries.filter (·.1 != key))

/-- Changes the table at the end of a path, and implies the tables that are missing on the way;
`dotted` tells that the path is one of dotted keys. The last table of an array stands for it. -/
def alter (dotted : Bool) (change : Draft → Option Draft) : List String → Draft → Option Draft
  | [], t => change t
  | k :: ks, t =>
    match t.get? k with
    | none => do
      return t.set k (.table (← alter dotted change ks (mk true dotted [])))
    | some (.value _) => none
    | some (.table child) =>
      if dotted && !child.isImplied then none
      else do return t.set k (.table (← alter dotted change ks child))
    | some (.tables ts) => do
      let last ← ts.getLast?
      return t.set k (.tables (ts.dropLast ++ [← alter dotted change ks last]))

/-- Adds a value under a key, dotted when the path is not empty. -/
def addValue (path : List String) (key : String) (v : Value) (t : Draft) : Option Draft :=
  t.alter true (fun t =>
    if t.isDotted = path.isEmpty then none
    else match t.get? key with
      | some _ => none
      | none => some (t.set key (.value v))) path

/-- Defines the table that a header names. -/
def define (path : List String) (key : String) (t : Draft) : Option Draft :=
  t.alter false (fun t =>
    match t.get? key with
    | none => some (t.set key (.table empty))
    | some (.table child) =>
      if child.isImplied && !child.isDotted then
        some (t.set key (.table (mk false false child.entries)))
      else none
    | some _ => none) path

/-- Adds a table to the array that a header names. -/
def append (path : List String) (key : String) (t : Draft) : Option Draft :=
  t.alter false (fun t =>
    match t.get? key with
    | none => some (t.set key (.tables [empty]))
    | some (.tables ts) => some (t.set key (.tables (ts ++ [empty])))
    | some _ => none) path

mutual

/-- The finished table. -/
def finish : Draft → List (String × Value)
  | mk _ _ es => finishEntries es

def finishEntries : List (String × Item) → List (String × Value)
  | [] => []
  | (k, item) :: es => (k, finishItem item) :: finishEntries es

def finishItem : Item → Value
  | .value v => v
  | .table t => .table t.finish
  | .tables ts => .array (finishTables ts)

def finishTables : List Draft → List Value
  | [] => []
  | t :: ts => .table t.finish :: finishTables ts

end

end Draft
end SchemaDocs.Toml
