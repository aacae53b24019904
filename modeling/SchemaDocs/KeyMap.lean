/-!
# Maps in key order

Finite maps from texts to values, kept as a list of entries with strictly rising keys. Texts are
compared by code point, which is the order of their UTF-8 bytes, so the entries of a map are its
canonical form: two maps with the same entries are equal.
-/

namespace SchemaDocs

/-- A finite map with text keys; the keys of `entries` rise strictly. -/
structure KeyMap (α : Type) where
  entries : List (String × α)
  sorted : entries.Pairwise (·.1 < ·.1)

namespace KeyMap
variable {α β : Type}

@[ext] theorem ext {m n : KeyMap α} (h : m.entries = n.entries) : m = n := by
  cases m; cases n; cases h; rfl

def empty : KeyMap α := ⟨[], .nil⟩

instance : Inhabited (KeyMap α) := ⟨empty⟩

/-- The entries with `key` bound to `value`: in its place by order, or for the entry it replaces. -/
def place (key : String) (value : α) : List (String × α) → List (String × α)
  | [] => [(key, value)]
  | e :: es =>
    if key < e.1 then (key, value) :: e :: es
    else if key = e.1 then (key, value) :: es
    else e :: place key value es

theorem mem_place {key : String} {value : α} {es : List (String × α)} {x : String × α}
    (h : x ∈ place key value es) : x = (key, value) ∨ x ∈ es := by
  induction es with
  | nil => simpa [place] using h
  | cons e es ih =>
    simp only [place] at h
    split at h
    · simpa using h
    · split at h
      · rcases List.mem_cons.1 h with h | h
        · exact .inl h
        · exact .inr (List.mem_cons_of_mem _ h)
      · rcases List.mem_cons.1 h with h | h
        · exact .inr (h ▸ List.mem_cons_self)
        · exact (ih h).imp_right (List.mem_cons_of_mem _)

theorem lt_of_not_lt_of_ne {a b : String} (h : ¬ a < b) (hne : a ≠ b) : b < a := by
  rcases String.le_total a b with hl | hl
  · exact absurd (String.le_antisymm hl (String.not_lt.1 h)) hne
  · exact String.not_le.1 fun hab => hne (String.le_antisymm hab hl)

theorem sorted_place (key : String) (value : α) {es : List (String × α)}
    (h : es.Pairwise (·.1 < ·.1)) : (place key value es).Pairwise (·.1 < ·.1) := by
  induction es with
  | nil => simp [place]
  | cons e es ih =>
    obtain ⟨he, hes⟩ := List.pairwise_cons.1 h
    simp only [place]
    split
    · rename_i hlt
      refine List.pairwise_cons.2 ⟨fun x hx => ?_, h⟩
      rcases List.mem_cons.1 hx with rfl | hx
      · exact hlt
      · exact String.lt_trans hlt (he x hx)
    · split
      · rename_i heq
        exact List.pairwise_cons.2 ⟨fun x hx => heq ▸ he x hx, hes⟩
      · rename_i hlt hne
        refine List.pairwise_cons.2 ⟨fun x hx => ?_, ih hes⟩
        rcases mem_place hx with rfl | hx
        · exact lt_of_not_lt_of_ne hlt hne
        · exact he x hx

/-- The map with `key` bound to `value`, whatever it was bound to before. -/
def insert (m : KeyMap α) (key : String) (value : α) : KeyMap α :=
  ⟨place key value m.entries, sorted_place key value m.sorted⟩

/-- The value of the first entry with the given key. -/
def find? (key : String) : List (String × α) → Option α
  | [] => none
  | e :: es => if key = e.1 then some e.2 else find? key es

def get? (m : KeyMap α) (key : String) : Option α := find? key m.entries

def contains (m : KeyMap α) (key : String) : Bool := (m.get? key).isSome

/-- The entries that satisfy `p`. -/
def filter (m : KeyMap α) (p : String → α → Bool) : KeyMap α :=
  ⟨m.entries.filter fun e => p e.1 e.2, m.sorted.filter _⟩

def erase (m : KeyMap α) (key : String) : KeyMap α := m.filter fun k _ => k != key

def map (m : KeyMap α) (f : String → α → β) : KeyMap β :=
  ⟨m.entries.map fun e => (e.1, f e.1 e.2), List.pairwise_map.2 m.sorted⟩

def keys (m : KeyMap α) : List String := m.entries.map (·.1)

def values (m : KeyMap α) : List α := m.entries.map (·.2)

def size (m : KeyMap α) : Nat := m.entries.length

/-- The map of a list of entries; of two with one key the later counts. -/
def ofList (es : List (String × α)) : KeyMap α :=
  es.foldl (fun m e => m.insert e.1 e.2) empty

@[simp] theorem entries_empty : (empty : KeyMap α).entries = [] := rfl

@[simp] theorem entries_filter (m : KeyMap α) (p : String → α → Bool) :
    (m.filter p).entries = m.entries.filter fun e => p e.1 e.2 := rfl

@[simp] theorem entries_map (m : KeyMap α) (f : String → α → β) :
    (m.map f).entries = m.entries.map fun e => (e.1, f e.1 e.2) := rfl

@[simp] theorem get?_empty (key : String) : (empty : KeyMap α).get? key = none := rfl

theorem find?_place (key : String) (value : α) (k : String) (es : List (String × α)) :
    find? k (place key value es) = if k = key then some value else find? k es := by
  induction es with
  | nil => rfl
  | cons e es ih =>
    simp only [place]
    split
    · rfl
    · split
      · rename_i heq
        by_cases hk : k = key <;> simp [find?, hk, ← heq]
      · rename_i hne
        by_cases hk : k = e.1
        · simp [find?, hk, Ne.symm hne]
        · simp [find?, hk, ih]

theorem get?_insert (m : KeyMap α) (key : String) (value : α) (k : String) :
    (m.insert key value).get? k = if k = key then some value else m.get? k :=
  find?_place key value k m.entries

theorem mem_of_find? {key : String} {value : α} {es : List (String × α)}
    (h : find? key es = some value) : (key, value) ∈ es := by
  induction es with
  | nil => simp [find?] at h
  | cons e es ih =>
    simp only [find?] at h
    split at h
    · rename_i hk
      cases h
      simp [hk]
    · exact List.mem_cons_of_mem _ (ih h)

theorem mem_keys_of_get? {m : KeyMap α} {key : String} {value : α} (h : m.get? key = some value) :
    key ∈ m.keys :=
  List.mem_map.2 ⟨(key, value), mem_of_find? h, rfl⟩

end KeyMap
end SchemaDocs
