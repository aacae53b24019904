import SchemaDocs.Toml.Blank

/-!
# Strings and keys of TOML

Basic strings know escapes, literal strings know none; both may run over several lines between
three quotation marks. The readers start after the opening mark and end after the closing one.
-/

namespace SchemaDocs.Toml

/-- The characters that stand for themselves in a literal string. -/
def isLiteralChar (c : Char) : Bool := isPlain c && c != '\''

/-- The characters that stand for themselves in a basic string. -/
def isBasicChar (c : Char) : Bool := isPlain c && c != '"' && c != '\\'

def hexValue? (c : Char) : Option Nat :=
  if c.isDigit then some (c.toNat - 0x30)
  else if 'a' ≤ c ∧ c ≤ 'f' then some (c.toNat - 0x57)
  else if 'A' ≤ c ∧ c ≤ 'F' then some (c.toNat - 0x37)
  else none

/-- The character with the given hexadecimal digits, unless they name none. -/
def scalar? (digits : List Char) : Option Char := do
  let n := (← digits.mapM hexValue?).foldl (fun n d => 16 * n + d) 0
  if n.isValidChar then some (Char.ofNat n) else none

/-- The character of an escape, without its backslash, and the rest. -/
def escape? : List Char → Option (Char × List Char)
  | 'b' :: s => some ('\x08', s)
  | 'f' :: s => some ('\x0c', s)
  | 'n' :: s => some ('\n', s)
  | 'r' :: s => some ('\r', s)
  | 't' :: s => some ('\t', s)
  | '"' :: s => some ('"', s)
  | '\\' :: s => some ('\\', s)
  | 'u' :: s => if s.length < 4 then none else (scalar? (s.take 4)).map (·, s.drop 4)
  | 'U' :: s => if s.length < 8 then none else (scalar? (s.take 8)).map (·, s.drop 8)
  | _ => none

theorem length_of_escape? {c : Char} {s rest : List Char} (h : escape? s = some (c, rest)) :
    rest.length < s.length := by
  unfold escape? at h
  split at h
  case h_8 | h_9 =>
    split at h
    · simp at h
    · obtain ⟨_, _, h⟩ := Option.map_eq_some_iff.1 h
      cases h
      simp only [List.length_drop, List.length_cons]
      omega
  all_goals simp_all

/-- The text of a basic string on one line. -/
def basic? (s : List Char) : Option (List Char × List Char) :=
  match s with
  | [] => none
  | '"' :: rest => some ([], rest)
  | '\\' :: rest =>
    match h : escape? rest with
    | none => none
    | some (c, rest') =>
      have := length_of_escape? h
      (basic? rest').map fun (t, rest) => (c :: t, rest)
  | c :: rest => if isBasicChar c then (basic? rest).map fun (t, rest) => (c :: t, rest) else none
termination_by s.length

/-- The text of a literal string on one line. -/
def literal? : List Char → Option (List Char × List Char)
  | [] => none
  | c :: rest =>
    if c = '\'' then some ([], rest)
    else if isLiteralChar c then (literal? rest).map fun (t, rest) => (c :: t, rest)
    else none

/-- At three marks: up to two marks more belong to the text. -/
def closing? (mark : Char) (s : List Char) : Option (List Char × List Char) :=
  let marks := s.takeWhile (· == mark)
  if marks.length < 3 then none
  else some (List.replicate (min 2 (marks.length - 3)) mark, s.drop (min 5 marks.length))

/-- The text of a basic string over several lines. A backslash at the end of a line takes the white
space after it out of the text. -/
def basicLines? (s : List Char) : Option (List Char × List Char) :=
  match closing? '"' s with
  | some end? => some end?
  | none =>
    match s with
    | [] => none
    | '\n' :: rest => (basicLines? rest).map fun (t, rest) => ('\n' :: t, rest)
    | '\r' :: '\n' :: rest => (basicLines? rest).map fun (t, rest) => ('\n' :: t, rest)
    | '\\' :: rest =>
      match hn : newline? (skipBlank rest) with
      | some rest' =>
        have : (skipBlankLines rest').length ≤ rest.length :=
          Nat.le_trans (length_skipBlankLines_le _) <|
            Nat.le_trans (Nat.le_of_lt (length_of_newline? hn)) (length_skipBlank_le _)
        basicLines? (skipBlankLines rest')
      | none =>
        match he : escape? rest with
        | none => none
        | some (c, rest') =>
          have := length_of_escape? he
          (basicLines? rest').map fun (t, rest) => (c :: t, rest)
    | c :: rest =>
      if isBasicChar c ∨ c = '"' then (basicLines? rest).map fun (t, rest) => (c :: t, rest)
      else none
termination_by s.length

/-- The text of a literal string over several lines. -/
def literalLines? (s : List Char) : Option (List Char × List Char) :=
  match closing? '\'' s with
  | some end? => some end?
  | none =>
    match s with
    | [] => none
    | '\n' :: rest => (literalLines? rest).map fun (t, rest) => ('\n' :: t, rest)
    | '\r' :: '\n' :: rest => (literalLines? rest).map fun (t, rest) => ('\n' :: t, rest)
    | c :: rest =>
      if isPlain c then (literalLines? rest).map fun (t, rest) => (c :: t, rest) else none
termination_by s.length

/-- The text without the end of a line at its start, which an opening mark of three takes along. -/
def afterOpening (s : List Char) : List Char := (newline? s).getD s

/-- The text of a string in any of the four forms. -/
def string? : List Char → Option (List Char × List Char)
  | '"' :: '"' :: '"' :: s => basicLines? (afterOpening s)
  | '"' :: s => basic? s
  | '\'' :: '\'' :: '\'' :: s => literalLines? (afterOpening s)
  | '\'' :: s => literal? s
  | _ => none

/-- The characters of keys without quotation marks. -/
def isBareChar (c : Char) : Bool := c.isAlphanum || c == '-' || c == '_'

/-- One key: bare, or quoted on one line. -/
def key? : List Char → Option (String × List Char)
  | '"' :: s => (basic? s).map fun (t, rest) => (String.ofList t, rest)
  | '\'' :: s => (literal? s).map fun (t, rest) => (String.ofList t, rest)
  | s =>
    if s.takeWhile isBareChar = [] then none
    else some (String.ofList (s.takeWhile isBareChar), s.dropWhile isBareChar)

/-- Keys joined by dots, at most `limit`, with blanks around each. -/
def path? : Nat → List Char → Option (List String × List Char)
  | 0, _ => none
  | limit + 1, s => do
    let (k, s) ← key? (skipBlank s)
    match skipBlank s with
    | '.' :: s => do
      let (ks, s) ← path? limit s
      return (k :: ks, s)
    | s => return ([k], s)

end SchemaDocs.Toml
