import SchemaDocs.Text.Blank
import SchemaDocs.Text.Strip
import SchemaDocs.Text.Uppercase

/-!
# Comments

From the comment before a declaration to its description. Cleaning leaves between two visible
characters nothing, a space, or an empty line. The long description drops the declaration's own
name from the start; the short one is the first sentence of that, without its period.
-/

namespace SchemaDocs.Comment

/-- The two characters that end a line. -/
def isBreak (c : Char) : Bool := c == '\n' || c == '\u2028'

/-- The white space since the last visible character: how many lines ended, and whether there was
any other. -/
structure Gap where
  breaks : Nat
  blank : Bool

/-- What a gap between two visible characters becomes. -/
def Gap.text (gap : Gap) : List Char :=
  match gap.breaks with
  | 0 => if gap.blank then [' '] else []
  | 1 => [' ']
  | _ => ['\n', '\n']

/-- Cleans a text in which `gap` goes before; `started` tells that a visible character went before
that. -/
def cleanAfter (started : Bool) (gap : Gap) : List Char → List Char
  | [] => []
  | c :: cs =>
    if isBreak c then cleanAfter started { gap with breaks := gap.breaks + 1 } cs
    else if Text.isBlank c then cleanAfter started { gap with blank := true } cs
    else (if started then gap.text else []) ++ c :: cleanAfter true ⟨0, false⟩ cs

def clean (s : List Char) : List Char := cleanAfter false ⟨0, false⟩ s

/-- The cleaned text without the marks of deprecated declarations. -/
def unmarked (raw : List Char) : List Char :=
  Text.remove 'D' ['e', 'p', 'r', 'e', 'c', 'a', 't', 'e', 'd', ':', ' '] (clean raw)

/-- Drops the name of what is described from the start, with the verb that follows it. -/
def dropName (name s : List Char) : List Char :=
  Text.without (name ++ [' ']) <|
  Text.without (name ++ [' ', 'a', 'r', 'e', ' ']) <|
  Text.without (name ++ [' ', 'i', 's', ' ']) s

/-- The long description of the declaration with the given name. -/
def long (name raw : List Char) : List Char := Text.capitalize (dropName name (unmarked raw))

/-- The text before the first empty line. -/
def paragraph : List Char → List Char
  | [] => []
  | [c] => [c]
  | c :: d :: cs => if c = '\n' ∧ d = '\n' then [] else c :: paragraph (d :: cs)

/-- The text before the first space that ends a sentence: one after a period that does not close a
lone capital. The three characters are those that went before, the nearest last. -/
def sentenceAfter (a b c : Char) : List Char → List Char
  | [] => []
  | d :: s =>
    if d = ' ' ∧ c = '.' ∧ (Text.isUpper b → Text.isUpper a) then []
    else d :: sentenceAfter b c d s

/-- The first sentence of a cleaned text. -/
def sentence (s : List Char) : List Char := sentenceAfter 'x' 'x' 'x' (paragraph s)

/-- The text without a period at its end. -/
def dropPeriod (s : List Char) : List Char :=
  if s.getLast? = some '.' then s.dropLast else s

/-- The short description of the declaration with the given name. -/
def short (name raw : List Char) : List Char := dropPeriod (sentence (long name raw))

/-! ## Descriptions as texts -/

/-- The description of something without a name to drop. -/
def plain (raw : String) : String := String.ofList (clean raw.toList)

def longFor (name raw : String) : String := String.ofList (long name.toList raw.toList)

def shortFor (name raw : String) : String := String.ofList (short name.toList raw.toList)

end SchemaDocs.Comment
