import SchemaDocs.Text.CaseTable

/-!
# Upper case

The Unicode property Uppercase and the full upper-case mapping, which may give several characters.
-/

namespace SchemaDocs.Text

/-- The Unicode property Uppercase. -/
def isUpper (c : Char) : Bool :=
  CaseTable.upper.any (·.has c.toNat)

/-- The upper case of one character: itself when the tables have no entry for it. -/
def upper (c : Char) : List Char :=
  match CaseTable.expansions.lookup c.toNat with
  | some ns => ns.map Char.ofNat
  | none =>
    match CaseTable.shifts.find? (·.1.has c.toNat) with
    | some (_, shift) => [Char.ofNat (c.toNat + shift).toNat]
    | none => [c]

/-- The text with its first character in upper case. -/
def capitalize : List Char → List Char
  | [] => []
  | c :: cs => upper c ++ cs

@[simp] theorem capitalize_nil : capitalize [] = [] := rfl

end SchemaDocs.Text
