import SchemaDocs.Json.Token

/-!
# Values of JSON texts

One token at a time builds the value, with the containers still open on a stack; so nesting costs
no more than length, and a text has at most one value.
-/

namespace SchemaDocs.Json

/-- An open container: what it holds so far, in reverse, and the key that awaits its value. -/
inductive Frame where
  | array (items : List Value)
  | object (members : List (Option String × Value)) (key : Option String)

/-- What a text may go on with. -/
inductive State where
  | done (v : Value)
  | value (stack : List Frame)
  | arrayStart (stack : List Frame)
  | objectStart (stack : List Frame)
  | key (members : List (Option String × Value)) (stack : List Frame)
  | colon (members : List (Option String × Value)) (key : Option String) (stack : List Frame)
  | afterItem (items : List Value) (stack : List Frame)
  | afterMember (members : List (Option String × Value)) (stack : List Frame)

namespace State

/-- A value is complete: it ends the text or joins the innermost container. -/
def supply (v : Value) : List Frame → State
  | [] => .done v
  | .array items :: stack => .afterItem (v :: items) stack
  | .object members k :: stack => .afterMember ((k, v) :: members) stack

/-- A token where a value must come. -/
def begin? (stack : List Frame) : Token → Option State
  | .arrayOpen => some (.arrayStart stack)
  | .objectOpen => some (.objectStart stack)
  | .string s => some (supply (.string s) stack)
  | .atom v => some (supply v stack)
  | _ => none

def feed? : State → Token → Option State
  | .value stack, t => begin? stack t
  | .arrayStart stack, .arrayClose => some (supply (.array []) stack)
  | .arrayStart stack, t => begin? (.array [] :: stack) t
  | .objectStart stack, .objectClose => some (supply (.object []) stack)
  | .objectStart stack, .string k => some (.colon [] k stack)
  | .key members stack, .string k => some (.colon members k stack)
  | .colon members k stack, .colon => some (.value (.object members k :: stack))
  | .afterItem items stack, .comma => some (.value (.array items :: stack))
  | .afterItem items stack, .arrayClose => some (supply (.array items.reverse) stack)
  | .afterMember members stack, .comma => some (.key members stack)
  | .afterMember members stack, .objectClose => some (supply (.object members.reverse) stack)
  | _, _ => none

/-- The state after a whole text, white space between tokens aside. -/
def run? (state : State) (s : List Char) : Option State :=
  match s with
  | [] => some state
  | c :: cs =>
    if Token.isSpace c then state.run? cs
    else
      match h : Token.next? (c :: cs) with
      | none => none
      | some (t, rest) =>
        match state.feed? t with
        | none => none
        | some state =>
          have : rest.length ≤ cs.length := Nat.le_of_lt_succ (Token.length_of_next? h)
          state.run? rest
termination_by s.length

end State

/-- The value of a text, when the text is one value and white space around its tokens. -/
def parse? (s : List Char) : Option Value :=
  match (State.value []).run? s with
  | some (.done v) => some v
  | _ => none

end SchemaDocs.Json
