import SchemaDocs.Doc.Basic
import SchemaDocs.Section.Configuration

/-!
# Assignment packages by section

Each member of a section names one package, which no other member may name. The default section
takes the packages that no member names, in their order.
-/

namespace SchemaDocs

open Doc (Package Chapter)

inductive AssignmentError where
  /-- A member names no package. -/
  | unmatched (member key : String)
  /-- Two members name one package, the first in section `first`. -/
  | claimedTwice (package first second : String)
deriving DecidableEq

def AssignmentError.message : AssignmentError → String
  | unmatched m k => "package `" ++ m ++ "` in section `" ++ k ++ "` not found"
  | claimedTwice p a b =>
    "package `" ++ p ++ "` claimed by section `" ++ a ++ "` and again by section `" ++ b ++ "`"

/-- The position of the package that a member names: the first with that identifier, else the first
with that display name, else the first whose identifier ends in a dot and the member. -/
def memberPosition? (ps : List Package) (member : String) : Option Nat :=
  (ps.findIdx? (·.id = member)).or <|
    (ps.findIdx? (·.name = member)).or <|
      ps.findIdx? fun p => Name.endsIn p.id member

namespace Assignment

/-- A package position, with the key of the section that claims it. -/
structure Claim where
  position : Nat
  key : String

/-- The members of all sections but the default one, with the keys of their sections. -/
def occurrences (config : Configuration) : List (String × String) :=
  config.sections.entries.flatMap fun (key, s) =>
    if key = defaultKey then [] else s.members.map (key, ·)

/-- Adds the claim of one member. -/
def claim (ps : List Package) (claims : List Claim) (key member : String) :
    Except AssignmentError (List Claim) :=
  match memberPosition? ps member with
  | none => .error (.unmatched member key)
  | some i =>
    match claims.find? (·.position = i) with
    | some first => .error (.claimedTwice ((ps[i]?.map (·.id)).getD "") first.key key)
    | none => .ok (claims ++ [⟨i, key⟩])

/-- The claims of all members, in the order of sections and members. -/
def claims (config : Configuration) (ps : List Package) : Except AssignmentError (List Claim) :=
  (occurrences config).foldlM (fun cs o => claim ps cs o.1 o.2) []

/-- The packages that a section claims, in the order of its members. -/
def claimedBy (ps : List Package) (cs : List Claim) (key : String) : List Package :=
  (cs.filter (·.key = key)).filterMap fun c => ps[c.position]?

/-- The packages that no section claims. -/
def unclaimed (ps : List Package) (cs : List Claim) : List Package :=
  (ps.zipIdx.filter fun p => cs.all (·.position ≠ p.2)).map (·.1)

def chapter (s : Section) (packages : List Package) : Chapter :=
  ⟨s.name, s.preamble, s.weight, packages⟩

end Assignment

/-- The chapters of all sections, the default one always among them, under the sections' keys. -/
def assign (config : Configuration) (ps : List Package) :
    Except AssignmentError (KeyMap Chapter) := do
  let cs ← Assignment.claims config ps
  let named := (config.sections.filter fun key _ => key != defaultKey).map fun key s =>
    Assignment.chapter s (Assignment.claimedBy ps cs key)
  let rest := (config.sections.get? defaultKey).getD (Section.initial defaultKey)
  return named.insert defaultKey (Assignment.chapter rest (Assignment.unclaimed ps cs))

end SchemaDocs
