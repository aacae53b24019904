import SchemaDocs.Json.Parse
import SchemaDocs.Proofs.Json.Token

/-!
# Texts of values read back

A text spells tokens, and the tokens of a value build that value; the compact text and the pretty
text spell the same tokens. So both are read back as the value that was written, when its strings
denote texts and its numbers are integers. Main statement: `parse?_of_spells`.
-/

namespace SchemaDocs.Json

/-- A text consists of these tokens, with white space around them. -/
inductive Spells : List Char → List Token → Prop
  | nil : Spells [] []
  | space {c : Char} {s : List Char} {ts : List Token} :
    Token.isSpace c = true → Spells s ts → Spells (c :: s) ts
  | token {s rest : List Char} {t : Token} {ts : List Token} :
    Token.next? s = some (t, rest) → Spells rest ts → Spells s (t :: ts)

namespace State

private theorem run?_of_spells {s : List Char} {ts : List Token} (h : Spells s ts) (state : State) :
    state.run? s = ts.foldlM feed? state := by
  induction h generalizing state with
  | nil => simp [run?]
  | space hc _ ih => rw [run?, if_pos hc, ih]
  | @token s rest t ts hnext _ ih =>
    cases s with
    | nil =>
      rw [Token.next?_nil] at hnext
      cases hnext
    | cons c s =>
      have hc : ¬ Token.isSpace c = true := by
        intro hc
        rw [Token.next?_space s hc] at hnext
        cases hnext
      rw [run?, if_neg hc]
      split
      · rename_i hnone
        rw [hnext] at hnone
        cases hnone
      · rename_i hsome
        rw [hnext] at hsome
        cases hsome
        rw [List.foldlM_cons]
        cases state.feed? t with
        | none => rfl
        | some next => exact ih next

end State

namespace Value

mutual
/-- The tokens of a value. -/
def tokens : Value → List Token
  | array [] => [.arrayOpen, .arrayClose]
  | array (v :: vs) => .arrayOpen :: (v.tokens ++ itemTokens vs)
  | object [] => [.objectOpen, .objectClose]
  | object ((k, v) :: ms) =>
    .objectOpen :: .string k :: .colon :: (v.tokens ++ memberTokens ms)
  | string s => [.string s]
  | v => [.atom v]

def itemTokens : List Value → List Token
  | [] => [.arrayClose]
  | v :: vs => .comma :: (v.tokens ++ itemTokens vs)

def memberTokens : List (Option String × Value) → List Token
  | [] => [.objectClose]
  | (k, v) :: ms => .comma :: .string k :: .colon :: (v.tokens ++ memberTokens ms)
end

end Value

namespace State

/-- A state in which a value must come, as the next one in the innermost container. -/
def Awaits (state : State) (stack : List Frame) : Prop :=
  ∀ t : Token, t ≠ .arrayClose → state.feed? t = begin? stack t

private theorem awaits_value (stack : List Frame) :
    (State.value stack).Awaits stack := fun _ _ => rfl

private theorem awaits_arrayStart (stack : List Frame) :
    (State.arrayStart stack).Awaits (.array [] :: stack) := by
  intro t ht
  cases t with
  | arrayClose => exact absurd rfl ht
  | _ => rfl

private theorem foldlM_feed {state next : State} {t : Token} (h : state.feed? t = some next)
    (ts : List Token) : (t :: ts).foldlM feed? state = ts.foldlM feed? next := by
  rw [List.foldlM_cons, h]
  rfl

private theorem Awaits.atom {state : State} {stack : List Frame} (h : state.Awaits stack)
    (v : Value)
    (ts : List Token) :
    (.atom v :: ts).foldlM feed? state = ts.foldlM feed? (supply v stack) :=
  foldlM_feed (h (.atom v) (by simp)) ts

mutual

/-- The tokens of a value build it where a value must come. -/
theorem foldlM_tokens : ∀ (v : Value) {state : State} {stack : List Frame}
    (_ : state.Awaits stack) (ts : List Token),
    (v.tokens ++ ts).foldlM feed? state = ts.foldlM feed? (supply v stack)
  | .array [], state, stack, h, ts => by
    have hopen : state.feed? .arrayOpen = some (.arrayStart stack) := h .arrayOpen (by simp)
    exact (foldlM_feed hopen _).trans (foldlM_feed rfl ts)
  | .array (v :: vs), state, stack, h, ts => by
    have hopen : state.feed? .arrayOpen = some (.arrayStart stack) := h .arrayOpen (by simp)
    rw [Value.tokens, List.cons_append, List.append_assoc, foldlM_feed hopen,
      foldlM_tokens v (awaits_arrayStart stack)]
    exact foldlM_itemTokens vs [v] stack ts
  | .object [], state, stack, h, ts => by
    have hopen : state.feed? .objectOpen = some (.objectStart stack) := h .objectOpen (by simp)
    exact (foldlM_feed hopen _).trans (foldlM_feed rfl ts)
  | .object ((k, v) :: ms), state, stack, h, ts => by
    have hopen : state.feed? .objectOpen = some (.objectStart stack) := h .objectOpen (by simp)
    have hkey : feed? (.objectStart stack) (.string k) = some (.colon [] k stack) := rfl
    have hcolon : feed? (.colon [] k stack) .colon = some (.value (.object [] k :: stack)) := rfl
    simp only [Value.tokens, List.cons_append, List.append_assoc]
    rw [foldlM_feed hopen, foldlM_feed hkey, foldlM_feed hcolon, foldlM_tokens v (awaits_value _)]
    exact foldlM_memberTokens ms [(k, v)] stack ts
  | .string s, state, stack, h, ts => foldlM_feed (h (.string s) (by simp)) ts
  | .null, state, stack, h, ts => h.atom .null ts
  | .bool b, state, stack, h, ts => h.atom (.bool b) ts
  | .int n, state, stack, h, ts => h.atom (.int n) ts
  | .real r, state, stack, h, ts => h.atom (.real r) ts

private theorem foldlM_itemTokens :
    ∀ (vs before : List Value) (stack : List Frame) (ts : List Token),
    (Value.itemTokens vs ++ ts).foldlM feed? (.afterItem before stack) =
      ts.foldlM feed? (supply (.array (before.reverse ++ vs)) stack)
  | [], before, stack, ts => by
    have hclose : feed? (.afterItem before stack) .arrayClose =
        some (supply (.array before.reverse) stack) := rfl
    rw [Value.itemTokens, List.singleton_append, foldlM_feed hclose, List.append_nil]
  | v :: vs, before, stack, ts => by
    have hcomma : feed? (.afterItem before stack) .comma =
        some (.value (.array before :: stack)) := rfl
    have hrest := foldlM_itemTokens vs (v :: before) stack ts
    rw [List.reverse_cons, List.append_assoc, List.singleton_append] at hrest
    rw [Value.itemTokens, List.cons_append, List.append_assoc, foldlM_feed hcomma,
      foldlM_tokens v (awaits_value _)]
    exact hrest

private theorem foldlM_memberTokens :
    ∀ (ms before : List (Option String × Value)) (stack : List Frame)
    (ts : List Token),
    (Value.memberTokens ms ++ ts).foldlM feed? (.afterMember before stack) =
      ts.foldlM feed? (supply (.object (before.reverse ++ ms)) stack)
  | [], before, stack, ts => by
    have hclose : feed? (.afterMember before stack) .objectClose =
        some (supply (.object before.reverse) stack) := rfl
    rw [Value.memberTokens, List.singleton_append, foldlM_feed hclose, List.append_nil]
  | (k, v) :: ms, before, stack, ts => by
    have hcomma : feed? (.afterMember before stack) .comma = some (.key before stack) := rfl
    have hkey : feed? (.key before stack) (.string k) = some (.colon before k stack) := rfl
    have hcolon : feed? (.colon before k stack) .colon =
        some (.value (.object before k :: stack)) := rfl
    have hrest := foldlM_memberTokens ms ((k, v) :: before) stack ts
    rw [List.reverse_cons, List.append_assoc, List.singleton_append] at hrest
    simp only [Value.memberTokens, List.cons_append, List.append_assoc]
    rw [foldlM_feed hcomma, foldlM_feed hkey, foldlM_feed hcolon, foldlM_tokens v (awaits_value _)]
    exact hrest

end

end State

/-- A text that spells the tokens of a value is read as that value. -/
theorem parse?_of_spells {s : List Char} {v : Value} (h : Spells s v.tokens) :
    parse? s = some v := by
  have hbuild := State.foldlM_tokens v (State.awaits_value []) []
  rw [List.append_nil, ← State.run?_of_spells h, List.foldlM_nil] at hbuild
  rw [parse?, hbuild]
  rfl

/-! ## What the two printers spell -/

namespace Value

/-- A value of which every string denotes a text and every number is an integer. -/
inductive Plain : Value → Prop
  | null : Plain .null
  | bool (b : Bool) : Plain (.bool b)
  | int (n : Int) : Plain (.int n)
  | text (s : String) : Plain (.text s)
  | array {items : List Value} : (∀ v ∈ items, Plain v) → Plain (.array items)
  | object {members : List (Option String × Value)} :
    (∀ m ∈ members, m.1.isSome = true) → (∀ m ∈ members, Plain m.2) → Plain (.object members)

attribute [simp] Plain.bool Plain.int Plain.text

theorem plain_list {α : Type} {write : α → Value} {as : List α} (h : ∀ a ∈ as, (write a).Plain) :
    (array (as.map write)).Plain :=
  .array (List.forall_mem_map.mpr h)

theorem delimited_cons {c : Char} (s : List Char) (h : c ∈ [',', ']', '\x7d', '\n']) :
    Token.Delimited (c :: s) := by
  intro d hd
  cases hd
  simp only [List.mem_cons, List.not_mem_nil, or_false] at h
  rcases h with rfl | rfl | rfl | rfl <;> decide

variable {s : List Char} {ts : List Token}

/-- A text spells the tokens of a value before anything that does not continue a number. -/
def Spelled (text : List Char) (v : Value) : Prop :=
  ∀ {s : List Char} {ts : List Token}, Spells s ts → Token.Delimited s →
    Spells (text ++ s) (v.tokens ++ ts)

private theorem spells_literal {k : Option String} (hk : k.isSome = true) (h : Spells s ts) :
    Spells (literal k ++ s) (.string k :: ts) := by
  obtain ⟨k, rfl⟩ := Option.isSome_iff_exists.mp hk
  have hquote := Token.next?_quote k.toList s
  rw [String.ofList_toList] at hquote
  exact .token hquote h

private theorem spelled_null : Spelled null.scalar .null := fun h _ => .token (Token.next?_null _) h

private theorem spelled_bool (b : Bool) : Spelled (bool b).scalar (.bool b) := by
  intro s ts h _
  cases b with
  | true => exact .token (Token.next?_true s) h
  | false => exact .token (Token.next?_false s) h

private theorem spelled_int (n : Int) : Spelled (int n).scalar (.int n) :=
  fun h hs => .token (Token.next?_ofInt n hs) h

private theorem spelled_text (k : String) : Spelled (text k).scalar (.text k) :=
  fun h _ => spells_literal rfl h

/-! ### Compact texts -/

private theorem delimited_compactItems (vs : List Value) (s : List Char) :
    Token.Delimited (compactItems vs ++ s) := by
  cases vs <;> exact delimited_cons _ (by simp)

private theorem delimited_compactMembers (ms : List (Option String × Value)) (s : List Char) :
    Token.Delimited (compactMembers ms ++ s) := by
  cases ms <;> exact delimited_cons _ (by simp)

private theorem spells_compactItems {vs : List Value} (hvs : ∀ v ∈ vs, Spelled v.compact v)
    (h : Spells s ts) : Spells (compactItems vs ++ s) (itemTokens vs ++ ts) := by
  induction vs with
  | nil => exact .token rfl h
  | cons v vs ih =>
    obtain ⟨hv, hvs⟩ := List.forall_mem_cons.mp hvs
    simp only [compactItems, itemTokens, List.cons_append, List.append_assoc]
    exact .token rfl (hv (ih hvs) (delimited_compactItems vs s))

private theorem spells_compactMembers {ms : List (Option String × Value)}
    (hkeys : ∀ m ∈ ms, m.1.isSome = true) (hms : ∀ m ∈ ms, Spelled m.2.compact m.2)
    (h : Spells s ts) : Spells (compactMembers ms ++ s) (memberTokens ms ++ ts) := by
  induction ms with
  | nil => exact .token rfl h
  | cons m ms ih =>
    obtain ⟨hk, hkeys⟩ := List.forall_mem_cons.mp hkeys
    obtain ⟨hm, hms⟩ := List.forall_mem_cons.mp hms
    simp only [compactMembers, memberTokens, List.cons_append, List.append_assoc]
    refine .token rfl (spells_literal hk (.token rfl ?_))
    exact hm (ih hkeys hms) (delimited_compactMembers ms s)

private theorem spelled_compact {v : Value} (hv : v.Plain) : Spelled v.compact v := by
  induction hv with
  | null => exact spelled_null
  | bool b => exact spelled_bool b
  | int n => exact spelled_int n
  | text k => exact spelled_text k
  | @array items _ ih =>
    intro s ts h _
    cases items with
    | nil => exact .token rfl (.token rfl h)
    | cons v vs =>
      obtain ⟨hv, hvs⟩ := List.forall_mem_cons.mp ih
      simp only [compact, tokens, List.cons_append, List.append_assoc]
      exact .token rfl (hv (spells_compactItems hvs h) (delimited_compactItems vs s))
  | @object members hkeys _ ih =>
    intro s ts h _
    cases members with
    | nil => exact .token rfl (.token rfl h)
    | cons m ms =>
      obtain ⟨hk, hkeys⟩ := List.forall_mem_cons.mp hkeys
      obtain ⟨hm, hms⟩ := List.forall_mem_cons.mp ih
      simp only [compact, tokens, List.cons_append, List.append_assoc]
      refine .token rfl (spells_literal hk (.token rfl ?_))
      exact hm (spells_compactMembers hkeys hms h) (delimited_compactMembers ms s)

/-! ### Pretty texts -/

private theorem spells_newline (level : Nat) (h : Spells s ts) :
    Spells (newline level ++ s) ts := by
  have hspaces (n : Nat) : Spells (List.replicate n ' ' ++ s) ts := by
    induction n with
    | zero => exact h
    | succ n ih => exact .space (by decide) ih
  exact .space (by decide) (hspaces _)

private theorem delimited_prettyItems (level : Nat) (vs : List Value) (s : List Char) :
    Token.Delimited (prettyItems level vs ++ s) := by
  cases vs <;> exact delimited_cons _ (by simp)

private theorem delimited_prettyMembers (level : Nat) (ms : List (Option String × Value))
    (s : List Char) :
    Token.Delimited (prettyMembers level ms ++ s) := by
  cases ms <;> exact delimited_cons _ (by simp)

private theorem spells_prettyItems {level : Nat} {vs : List Value}
    (hvs : ∀ v ∈ vs, ∀ level, Spelled (v.prettyAt level) v) (h : Spells s ts) :
    Spells (prettyItems level vs ++ s) (itemTokens vs ++ ts) := by
  induction vs with
  | nil =>
    simp only [prettyItems, itemTokens, List.append_assoc]
    exact spells_newline level (.token rfl h)
  | cons v vs ih =>
    obtain ⟨hv, hvs⟩ := List.forall_mem_cons.mp hvs
    simp only [prettyItems, itemTokens, List.cons_append, List.append_assoc]
    refine .token rfl (spells_newline _ ?_)
    exact hv _ (ih hvs) (delimited_prettyItems level vs s)

private theorem spells_prettyMembers {level : Nat} {ms : List (Option String × Value)}
    (hkeys : ∀ m ∈ ms, m.1.isSome = true)
    (hms : ∀ m ∈ ms, ∀ level, Spelled (m.2.prettyAt level) m.2) (h : Spells s ts) :
    Spells (prettyMembers level ms ++ s) (memberTokens ms ++ ts) := by
  induction ms with
  | nil =>
    simp only [prettyMembers, memberTokens, List.append_assoc]
    exact spells_newline level (.token rfl h)
  | cons m ms ih =>
    obtain ⟨hk, hkeys⟩ := List.forall_mem_cons.mp hkeys
    obtain ⟨hm, hms⟩ := List.forall_mem_cons.mp hms
    simp only [prettyMembers, memberTokens, List.cons_append, List.append_assoc]
    refine .token rfl (spells_newline _ (spells_literal hk (.token rfl (.space (by decide) ?_))))
    exact hm _ (ih hkeys hms) (delimited_prettyMembers level ms s)

private theorem spelled_prettyAt {v : Value} (hv : v.Plain) (level : Nat) :
    Spelled (v.prettyAt level) v := by
  induction hv generalizing level with
  | null => exact spelled_null
  | bool b => exact spelled_bool b
  | int n => exact spelled_int n
  | text k => exact spelled_text k
  | @array items _ ih =>
    intro s ts h _
    cases items with
    | nil => exact .token rfl (.token rfl h)
    | cons v vs =>
      obtain ⟨hv, hvs⟩ := List.forall_mem_cons.mp ih
      simp only [prettyAt, tokens, List.cons_append, List.append_assoc]
      refine .token rfl (spells_newline _ ?_)
      exact hv _ (spells_prettyItems hvs h) (delimited_prettyItems level vs s)
  | @object members hkeys _ ih =>
    intro s ts h _
    cases members with
    | nil => exact .token rfl (.token rfl h)
    | cons m ms =>
      obtain ⟨hk, hkeys⟩ := List.forall_mem_cons.mp hkeys
      obtain ⟨hm, hms⟩ := List.forall_mem_cons.mp ih
      simp only [prettyAt, tokens, List.cons_append, List.append_assoc]
      refine .token rfl (spells_newline _ (spells_literal hk (.token rfl (.space (by decide) ?_))))
      exact hm _ (spells_prettyMembers hkeys hms h) (delimited_prettyMembers level ms s)

end Value

theorem parse?_compact {v : Value} (hv : v.Plain) : parse? v.compact = some v := by
  have hspells := Value.spelled_compact hv .nil Token.delimited_nil
  rw [List.append_nil, List.append_nil] at hspells
  exact parse?_of_spells hspells

theorem parse?_pretty_append {v : Value} (hv : v.Plain) {s : List Char} (hs : Spells s [])
    (hd : Token.Delimited s) : parse? (v.pretty ++ s) = some v := by
  have hspells := Value.spelled_prettyAt hv 0 hs hd
  rw [List.append_nil] at hspells
  exact parse?_of_spells hspells

end SchemaDocs.Json
