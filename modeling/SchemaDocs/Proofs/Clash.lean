import Mathlib.Data.List.Lex
import SchemaDocs.Proofs.Located
import SchemaDocs.Proofs.Registration
import SchemaDocs.Proofs.Schema.Json

/-!
# Names that are declared twice

A declaration stands at a place: in a file of the schema, at the end of steps through the messages
that enclose it. In the order of places an enclosing message goes before what it encloses, and its
enumerations go before its messages. The error of a schema with a name declared twice is told by
places alone. Main statement: `index?_clash`.
-/

namespace SchemaDocs

namespace Schema

/-- A step from a file, or a message, to a declaration directly inside it. -/
inductive Step where
  | enum (i : Nat)
  | message (i : Nat)

/-- The order of declarations side by side: all enumerations, then all messages. -/
inductive Step.Before : Step → Step → Prop
  | enums {i j : Nat} : i < j → Before (.enum i) (.enum j)
  | kinds {i j : Nat} : Before (.enum i) (.message j)
  | messages {i j : Nat} : i < j → Before (.message i) (.message j)

/-- Steps from a message lead to a declaration, no steps to the message itself. -/
inductive Message.At : Message → List Step → Declaration → Prop
  | self {m : Message} : At m [] (.message m)
  | enum {m : Message} {i : Nat} {e : Enum} : m.enums[i]? = some e → At m [.enum i] (.enum e)
  | inner {m inner : Message} {i : Nat} {steps : List Step} {d : Declaration} :
    m.messages[i]? = some inner → At inner steps d → At m (.message i :: steps) d

/-- Steps from a file lead to a declaration. -/
inductive File.At (f : File) : List Step → Declaration → Prop
  | enum {i : Nat} {e : Enum} : f.enums[i]? = some e → At f [.enum i] (.enum e)
  | message {m : Message} {i : Nat} {steps : List Step} {d : Declaration} :
    f.messages[i]? = some m → m.At steps d → At f (.message i :: steps) d

/-- Where a declaration stands: the position of its file, and the steps from there. -/
structure Place where
  file : Nat
  steps : List Step

/-- The order of places. No steps go before some, so a message goes before what it encloses. -/
inductive Place.Before : Place → Place → Prop
  | files {i j : Nat} {steps steps' : List Step} : i < j → Before ⟨i, steps⟩ ⟨j, steps'⟩
  | steps {i : Nat} {steps steps' : List Step} :
    List.Lex Step.Before steps steps' → Before ⟨i, steps⟩ ⟨i, steps'⟩

instance : Std.Asymm Step.Before where
  asymm a b hab hba := by
    cases hab with
    | enums h =>
      cases hba with
      | enums h' => exact Nat.lt_asymm h h'
    | kinds => cases hba
    | messages h =>
      cases hba with
      | messages h' => exact Nat.lt_asymm h h'

instance : Std.Asymm Place.Before where
  asymm p q hpq hqp := by
    cases hpq with
    | files h =>
      cases hqp with
      | files h' => exact Nat.lt_asymm h h'
      | steps => exact Nat.lt_irrefl _ h
    | steps h =>
      cases hqp with
      | files h' => exact Nat.lt_irrefl _ h'
      | steps h' => exact Std.Asymm.asymm _ _ h h'

variable {s : Schema}

/-- A declaration of a schema at a place, with the package of its file. -/
def At (s : Schema) (p : Place) (d : Declared) : Prop :=
  ∃ f, s.files[p.file]? = some f ∧ f.At p.steps d.declaration ∧ f.package = d.package

/-- The declaration at a place takes a name in a package: any does but the entry message of a map
field. -/
def Takes (s : Schema) (p : Place) (package name : String) : Prop :=
  ∃ d, s.At p ⟨package, d⟩ ∧ d.isMapEntry = false ∧ d.name = name

/-- The declaration at a place takes a name that one before it has taken. -/
def Repeats (s : Schema) (p : Place) (package name : String) : Prop :=
  s.Takes p package name ∧ ∃ q, q.Before p ∧ s.Takes q package name

/-! ## Declarations in the order of their places -/

/-- Enumerations with the steps to them. -/
def locatedEnums (enums : List Enum) : List (List Step × Declaration) :=
  (numbered enums 0).map fun x => ([.enum x.1], .enum x.2)

mutual

/-- What a message declares, with the steps to it. -/
def Message.located : Message → List (List Step × Declaration)
  | m@⟨_, _, _, _, messages, enums, _⟩ =>
    ([], .message m) :: (locatedEnums enums ++ locatedFrom 0 messages)

/-- What messages declare, where `i` is the position of the first of them. -/
def locatedFrom (i : Nat) : List Message → List (List Step × Declaration)
  | [] => []
  | m :: ms => m.located.map (fun x => (.message i :: x.1, x.2)) ++ locatedFrom (i + 1) ms

end

def File.located (f : File) : List (List Step × Declaration) :=
  locatedEnums f.enums ++ locatedFrom 0 f.messages

/-- All declarations with their places. -/
def located (s : Schema) : List (Place × Declared) :=
  (numbered s.files 0).flatMap fun x =>
    (x.2.located.map fun y => (y.1, ⟨x.2.package, y.2⟩)).map fun y => (⟨x.1, y.1⟩, y.2)

private theorem map_snd_locatedEnums (enums : List Enum) :
    (locatedEnums enums).map (·.2) = enums.map .enum := by
  conv_rhs => rw [← map_snd_numbered enums 0]
  rw [locatedEnums, List.map_map, List.map_map]
  rfl

mutual

private theorem Message.map_snd_located : ∀ m : Message, m.located.map (·.2) = m.declarations
  | ⟨_, _, _, _, messages, enums, _⟩ => by
    rw [Message.located, Message.declarations, List.map_cons, List.map_append,
      map_snd_locatedEnums, map_snd_locatedFrom 0 messages]
    rfl

private theorem map_snd_locatedFrom : ∀ (i : Nat) (ms : List Message),
    (locatedFrom i ms).map (·.2) = declarationsOf ms
  | _, [] => by rw [locatedFrom, declarationsOf, List.map_nil]
  | i, m :: ms => by
    rw [locatedFrom, declarationsOf, List.map_append, List.map_map, map_snd_locatedFrom (i + 1) ms,
      ← m.map_snd_located]
    rfl

end

private theorem File.map_snd_located (f : File) : f.located.map (·.2) = f.declarations := by
  rw [File.located, File.declarations, List.map_append, map_snd_locatedEnums, map_snd_locatedFrom]

private theorem map_snd_located (s : Schema) : s.located.map (·.2) = s.declared := by
  conv_rhs => rw [declared, ← map_snd_numbered s.files 0, List.flatMap_map]
  rw [located, List.map_flatMap]
  refine List.flatMap_congr fun x _ => ?_
  rw [← File.map_snd_located, List.map_map, List.map_map, List.map_map]
  rfl

private theorem locatedFrom_eq (i : Nat) (ms : List Message) :
    locatedFrom i ms = (numbered ms i).flatMap fun x =>
      x.2.located.map fun y => (.message x.1 :: y.1, y.2) := by
  induction ms generalizing i with
  | nil => rfl
  | cons m ms ih => rw [locatedFrom, ih, numbered_cons, List.flatMap_cons]

private theorem locatedEnums_spec (enums : List Enum) : Located (List.Lex Step.Before)
    (fun steps d => ∃ i e, [.enum i] = steps ∧ .enum e = d ∧ enums[i]? = some e)
    (locatedEnums enums) :=
  (Located.positions enums).map (fun i => [Step.enum i]) fun _ _ hij => .rel (.enums hij)

private theorem locatedFrom_spec {ms : List Message}
    (h : ∀ m ∈ ms, Located (List.Lex Step.Before) m.At m.located) :
    Located (List.Lex Step.Before)
      (fun steps d => ∃ i m rest, .message i :: rest = steps ∧ ms[i]? = some m ∧ m.At rest d)
      (locatedFrom 0 ms) := by
  rw [locatedFrom_eq]
  exact (Located.positions ms).nest (fun _ m hm => h m (List.mem_of_getElem? hm))
    (fun _ _ _ _ hij => .rel (.messages hij)) fun _ _ _ hsteps => .cons hsteps

private theorem locatedInside_spec (enums : List Enum) {ms : List Message}
    (h : ∀ m ∈ ms, Located (List.Lex Step.Before) m.At m.located) :
    Located (List.Lex Step.Before)
      (fun steps d => (∃ i e, [.enum i] = steps ∧ .enum e = d ∧ enums[i]? = some e) ∨
        ∃ i m rest, .message i :: rest = steps ∧ ms[i]? = some m ∧ m.At rest d)
      (locatedEnums enums ++ locatedFrom 0 ms) := by
  refine (locatedEnums_spec enums).append (locatedFrom_spec h) ?_
  rintro _ _ _ _ ⟨i, e, rfl, -, -⟩ ⟨j, m, rest, rfl, -, -⟩
  exact .rel .kinds

private theorem Message.located_spec (m : Message) :
    Located (List.Lex Step.Before) m.At m.located := by
  induction m using Message.induction with
  | mk m ih =>
    have hinside := locatedInside_spec m.enums ih
    have hself := Located.singleton (r := List.Lex Step.Before) [] (Declaration.message m)
    have hlist : m.located =
        [([], .message m)] ++ (locatedEnums m.enums ++ locatedFrom 0 m.messages) := by
      cases m
      rfl
    rw [hlist]
    refine (hself.append hinside ?_).congr fun steps d => ?_
    · rintro _ _ _ _ ⟨rfl, -⟩ (⟨i, e, rfl, -, -⟩ | ⟨i, n, rest, rfl, -, -⟩)
      · exact .nil
      · exact .nil
    · constructor
      · intro h
        rcases h with ⟨rfl, rfl⟩ | ⟨i, e, rfl, rfl, he⟩ | ⟨i, n, rest, rfl, hn, hd⟩
        · exact .self
        · exact .enum he
        · exact .inner hn hd
      · intro h
        cases h with
        | self => exact .inl ⟨rfl, rfl⟩
        | enum he => exact .inr (.inl ⟨_, _, rfl, rfl, he⟩)
        | inner hn hd => exact .inr (.inr ⟨_, _, _, rfl, hn, hd⟩)

private theorem File.located_spec (f : File) : Located (List.Lex Step.Before) f.At f.located := by
  refine (locatedInside_spec f.enums fun m _ => m.located_spec).congr fun steps d => ?_
  constructor
  · intro h
    rcases h with ⟨i, e, rfl, rfl, he⟩ | ⟨i, m, rest, rfl, hm, hd⟩
    · exact .enum he
    · exact .message hm hd
  · intro h
    cases h with
    | enum he => exact .inl ⟨_, _, rfl, rfl, he⟩
    | message hm hd => exact .inr ⟨_, _, _, rfl, hm, hd⟩

private theorem located_spec (s : Schema) : Located Place.Before s.At s.located := by
  have hfile (f : File) : Located (List.Lex Step.Before)
      (fun steps d => f.At steps d.declaration ∧ f.package = d.package)
      (f.located.map fun y => (y.1, (⟨f.package, y.2⟩ : Declared))) := by
    refine (f.located_spec.map id fun _ _ h => h).congr fun steps d => ?_
    constructor
    · intro h
      obtain ⟨_, _, rfl, rfl, h⟩ := h
      exact ⟨h, rfl⟩
    · intro h
      obtain ⟨h, hpackage⟩ := h
      exact ⟨steps, d.declaration, rfl, by rw [hpackage], h⟩
  refine ((Located.positions s.files).nest (fun _ f _ => hfile f) (fun _ _ _ _ h => .files h)
    fun _ _ _ h => .steps h).congr fun p d => ?_
  constructor
  · intro h
    obtain ⟨i, f, steps, rfl, hf, h⟩ := h
    exact ⟨f, hf, h⟩
  · intro h
    obtain ⟨f, hf, h⟩ := h
    exact ⟨p.file, f, p.steps, rfl, hf, h⟩

/-! ## The first name that is taken -/

/-- In a row whose order is that of a relation, an element repeats one of the others if and only if
it repeats one that is before it. -/
theorem firstRepeat?_filterMap {α β : Type} [DecidableEq β] {r : α → α → Prop} {g : α → Option β}
    {seen : List β} {l : List α} {b : β} (hasymm : ∀ x y, r x y → ¬ r y x) (hl : l.Pairwise r) :
    firstRepeat? seen (l.filterMap g) = some b ↔ FirstFault
      (fun y b => g y = some b ∧ (b ∈ seen ∨ ∃ x ∈ l, r x y ∧ g x = some b)) l b := by
  induction l generalizing seen with
  | nil => simp [firstRepeat?]
  | cons a l ih =>
    obtain ⟨hbefore, hl⟩ := List.pairwise_cons.mp hl
    have hnone : ∀ x ∈ a :: l, ¬ r x a := by
      intro x hx hxa
      rcases List.mem_cons.mp hx with rfl | hx
      · exact hasymm _ _ hxa hxa
      · exact hasymm _ _ hxa (hbefore x hx)
    have hfirst (b' : β) : (g a = some b' ∧ (b' ∈ seen ∨ ∃ x ∈ a :: l, r x a ∧ g x = some b')) ↔
        g a = some b' ∧ b' ∈ seen := by
      refine and_congr_right fun _ => or_iff_left ?_
      intro h
      obtain ⟨x, hx, hxa, -⟩ := h
      exact hnone x hx hxa
    rw [firstFault_cons]
    simp only [hfirst]
    cases ha : g a with
    | none => simp [ha, ih hl]
    | some c =>
      rw [List.filterMap_cons_some ha, firstRepeat?]
      by_cases hc : c ∈ seen
      · have hfault : ¬ ∀ e, ¬ (some c = some e ∧ e ∈ seen) := fun hall => hall c ⟨rfl, hc⟩
        rw [if_pos hc, or_iff_left fun h => hfault h.1]
        constructor
        · intro h
          cases h
          exact ⟨rfl, hc⟩
        · exact fun h => h.1
      · have hfault (e : β) : ¬ (some c = some e ∧ e ∈ seen) := by
          intro h
          obtain ⟨heq, he⟩ := h
          cases heq
          exact hc he
        rw [if_neg hc, ih hl, or_iff_right (hfault b), and_iff_right hfault]
        refine firstFault_congr fun y hy e => and_congr_right fun _ => ?_
        simp only [List.mem_cons, exists_eq_or_imp, ha, hbefore y hy, true_and, Option.some_inj,
          or_assoc, eq_comm (a := e)]
        rw [or_left_comm]

private theorem takes_iff {p : Place} {package name : String} :
    s.Takes p package name ↔ ∃ d, s.At p d ∧ d.slot? = some (package, name) := by
  constructor
  · intro h
    obtain ⟨d, hd, hentry, rfl⟩ := h
    exact ⟨_, hd, by simp [Declared.slot?, hentry]⟩
  · intro h
    obtain ⟨⟨package', d⟩, hd, hslot⟩ := h
    unfold Declared.slot? at hslot
    split at hslot
    · cases hslot
    · rename_i hentry
      cases hslot
      exact ⟨d, hd, by simpa using hentry, rfl⟩

private theorem repeats_iff {p : Place} {package name : String} :
    s.Repeats p package name ↔ ∃ d, s.At p d ∧ d.slot? = some (package, name) ∧
      ∃ q d', s.At q d' ∧ q.Before p ∧ d'.slot? = some (package, name) := by
  simp only [Repeats, takes_iff]
  constructor
  · intro h
    obtain ⟨⟨d, hd, hslot⟩, q, hq, d', hd', hslot'⟩ := h
    exact ⟨d, hd, hslot, q, d', hd', hq, hslot'⟩
  · intro h
    obtain ⟨d, hd, hslot, q, d', hd', hq, hslot'⟩ := h
    exact ⟨⟨d, hd, hslot⟩, q, hq, d', hd', hslot'⟩

private theorem clash?_eq_some_iff_firstFault {clash : String × String} :
    s.clash? = some clash ↔ FirstFault (fun x clash => x.2.slot? = some clash ∧
      ∃ q d', s.At q d' ∧ q.Before x.1 ∧ d'.slot? = some clash) s.located clash := by
  have hlocated := located_spec s
  have hrow : s.declared.filterMap Declared.slot? = s.located.filterMap fun x => x.2.slot? := by
    rw [← map_snd_located, List.filterMap_map]
    rfl
  rw [clash?, hrow, firstRepeat?_filterMap (fun x y => Std.Asymm.asymm x.1 y.1) hlocated.sorted]
  simp only [List.not_mem_nil, false_or, Prod.exists, hlocated.mem_iff]

private theorem clash?_eq_some_iff {package name : String} :
    s.clash? = some (package, name) ↔ ∃ p, s.Repeats p package name ∧
      ∀ q, q.Before p → ∀ package' name', ¬ s.Repeats q package' name' := by
  rw [clash?_eq_some_iff_firstFault, (located_spec s).firstFault_iff (fun p d clash =>
    d.slot? = some clash ∧ ∃ q d', s.At q d' ∧ q.Before p ∧ d'.slot? = some clash)]
  simp only [repeats_iff]
  constructor
  · intro h
    obtain ⟨p, d, hd, hfault, hnone⟩ := h
    refine ⟨p, ⟨d, hd, hfault⟩, ?_⟩
    rintro q hq package' name' ⟨d', hd', hfault'⟩
    exact hnone q d' hd' hq _ hfault'
  · intro h
    obtain ⟨p, ⟨d, hd, hfault⟩, hnone⟩ := h
    exact ⟨p, d, hd, hfault, fun q d' hd' hq b hfault' => hnone q hq b.1 b.2 ⟨d', hd', hfault'⟩⟩

private theorem exists_clash?_iff : (∃ clash, s.clash? = some clash) ↔
    ∃ p package name, s.Repeats p package name := by
  simp only [clash?_eq_some_iff_firstFault, exists_firstFault_iff, Prod.exists, repeats_iff,
    (located_spec s).mem_iff]
  refine exists_congr fun p => ?_
  constructor
  · intro h
    obtain ⟨d, hd, package, name, hfault⟩ := h
    exact ⟨package, name, d, hd, hfault⟩
  · intro h
    obtain ⟨package, name, d, hd, hfault⟩ := h
    exact ⟨d, hd, package, name, hfault⟩

private theorem exists_repeats_iff {package name : String} : (∃ p, s.Repeats p package name) ↔
    ∃ p q, p ≠ q ∧ s.Takes p package name ∧ s.Takes q package name := by
  constructor
  · intro h
    obtain ⟨p, hp, q, hqp, hq⟩ := h
    refine ⟨p, q, ?_, hp, hq⟩
    rintro rfl
    exact Std.Asymm.asymm _ _ hqp hqp
  · intro h
    obtain ⟨p, q, hne, hp, hq⟩ := h
    obtain ⟨d, hd, -⟩ := id hp
    obtain ⟨d', hd', -⟩ := id hq
    rcases (located_spec s).before_or_before hd hd' hne with hpq | hqp
    · exact ⟨q, hq, p, hpq, hp⟩
    · exact ⟨p, hp, q, hqp, hq⟩

private theorem index?_eq_error_iff {e : ConversionError} : s.index? = .error e ↔
    ∃ package name, s.clash? = some (package, name) ∧ e = .duplicateType package name := by
  rw [index?]
  rcases s.clash? with _ | ⟨package, name⟩
  · simp
  · constructor
    · intro h
      cases h
      exact ⟨package, name, rfl, rfl⟩
    · intro h
      obtain ⟨_, _, hclash, rfl⟩ := h
      cases hclash
      rfl

/-- Indexing a schema fails if and only if two declarations of one package have one name, wherever
its files declare them; entry messages of map fields have no part in that. The error names package
and name of the first declaration, in the order of places, whose name was taken before it. -/
theorem index?_clash (s : Schema) :
    ((∃ e, s.index? = .error e) ↔
      ∃ p q, p ≠ q ∧ ∃ package name, s.Takes p package name ∧ s.Takes q package name) ∧
    ∀ e, s.index? = .error e ↔ ∃ p package name, e = .duplicateType package name ∧
      s.Repeats p package name ∧
        ∀ q, q.Before p → ∀ package' name', ¬ s.Repeats q package' name' := by
  constructor
  · calc (∃ e, s.index? = .error e)
      _ ↔ ∃ clash, s.clash? = some clash := by simp [index?_eq_error_iff]
      _ ↔ ∃ p package name, s.Repeats p package name := exists_clash?_iff
      _ ↔ ∃ p q, p ≠ q ∧ ∃ package name, s.Takes p package name ∧ s.Takes q package name := by
        constructor
        · intro h
          obtain ⟨p, package, name, hp⟩ := h
          obtain ⟨p, q, hne, htakes⟩ := exists_repeats_iff.mp ⟨p, hp⟩
          exact ⟨p, q, hne, package, name, htakes⟩
        · intro h
          obtain ⟨p, q, hne, package, name, htakes⟩ := h
          obtain ⟨r, hr⟩ := exists_repeats_iff.mpr ⟨p, q, hne, htakes⟩
          exact ⟨r, package, name, hr⟩
  · intro e
    rw [index?_eq_error_iff]
    simp only [clash?_eq_some_iff]
    constructor
    · intro h
      obtain ⟨package, name, ⟨p, hp⟩, rfl⟩ := h
      exact ⟨p, package, name, rfl, hp⟩
    · intro h
      obtain ⟨p, package, name, rfl, hp⟩ := h
      exact ⟨package, name, ⟨p, hp⟩, rfl⟩

-- An entry message takes no name, but an enumeration inside it does.
example : (Schema.mk [catalogFile .string none,
      .holding "more.proto" "shop" (.plain "LinesEntry" "shop.LinesEntry")]).clash? = none ∧
    (Schema.mk [catalogFile .string none,
      .holding "more.proto" "shop" (.plain "Hidden" "shop.Hidden")]).clash? =
        some ("shop", "Hidden") := by
  decide

end Schema
end SchemaDocs
