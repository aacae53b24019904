import SchemaDocs.Json.Record
import SchemaDocs.Proofs.Json.Text

/-!
# Records read back

A record is written as its slots, of which those without a value are left out. A reader finds the
slots again under their names, whatever is left out, and takes a value exactly when it opens no more
containers than the reader allows. Main statements: `fields?_filled`, `reads_record`.
-/

namespace SchemaDocs.Json

namespace Value

mutual
/-- How many containers a value opens inside each other. -/
def nesting : Value → Nat
  | array items => itemsNesting items + 1
  | object members => membersNesting members + 1
  | _ => 0

def itemsNesting : List Value → Nat
  | [] => 0
  | v :: vs => max v.nesting (itemsNesting vs)

def membersNesting : List (Option String × Value) → Nat
  | [] => 0
  | (_, v) :: ms => max v.nesting (membersNesting ms)
end

private theorem itemsNesting_le_iff {vs : List Value} {depth : Nat} :
    itemsNesting vs ≤ depth ↔ ∀ v ∈ vs, v.nesting ≤ depth := by
  induction vs with
  | nil => simp [itemsNesting]
  | cons v vs ih => rw [itemsNesting, Nat.max_le, ih, List.forall_mem_cons]

private theorem membersNesting_le_iff {ms : List (Option String × Value)} {depth : Nat} :
    membersNesting ms ≤ depth ↔ ∀ m ∈ ms, m.2.nesting ≤ depth := by
  induction ms with
  | nil => simp [membersNesting]
  | cons m ms ih => rw [membersNesting, Nat.max_le, ih, List.forall_mem_cons]

@[simp] theorem nesting_text (s : String) : (text s).nesting = 0 := rfl

@[simp] theorem nesting_bool (b : Bool) : (bool b).nesting = 0 := rfl

@[simp] theorem nesting_int (n : Int) : (int n).nesting = 0 := rfl

@[simp] theorem nesting_array_le_succ {vs : List Value} {depth : Nat} :
    (array vs).nesting ≤ depth + 1 ↔ ∀ v ∈ vs, v.nesting ≤ depth := by
  rw [nesting, Nat.add_le_add_iff_right, itemsNesting_le_iff]

@[simp] theorem not_nesting_array_le_zero (vs : List Value) : ¬ (array vs).nesting ≤ 0 := by
  simp [nesting]

theorem nesting_lt_array {v : Value} {vs : List Value} (h : v ∈ vs) :
    v.nesting < (array vs).nesting :=
  Nat.lt_succ_of_le (itemsNesting_le_iff.mp (Nat.le_refl _) v h)

/-! ## Slots -/

/-- The members of an object with those slots that are filled. -/
def filled (slots : List (String × Option Value)) : List (Option String × Value) :=
  slots.filterMap fun slot => slot.2.map (some slot.1, ·)

/-- Every value in the slots opens at most so many containers inside each other. -/
def SlotsWithin (depth : Nat) (slots : List (String × Option Value)) : Prop :=
  ∀ slot ∈ slots, ∀ v ∈ slot.2, v.nesting ≤ depth

variable {slots : List (String × Option Value)} {depth : Nat}

instance : Decidable (SlotsWithin depth slots) :=
  inferInstanceAs (Decidable (∀ slot ∈ slots, ∀ v ∈ slot.2, v.nesting ≤ depth))

@[simp] theorem slotsWithin_nil : SlotsWithin depth [] := by simp [SlotsWithin]

@[simp] theorem slotsWithin_cons {name : String} {o : Option Value} :
    SlotsWithin depth ((name, o) :: slots) ↔
      (∀ v ∈ o, v.nesting ≤ depth) ∧ SlotsWithin depth slots :=
  List.forall_mem_cons

private theorem mem_filled {m : Option String × Value} :
    m ∈ filled slots ↔ ∃ slot ∈ slots, ∃ v ∈ slot.2, (some slot.1, v) = m := by
  simp [filled]

theorem nesting_filled_le_succ :
    (object (filled slots)).nesting ≤ depth + 1 ↔ SlotsWithin depth slots := by
  rw [nesting, Nat.add_le_add_iff_right, membersNesting_le_iff]
  constructor
  · intro h slot hslot v hv
    exact h (some slot.1, v) (mem_filled.mpr ⟨slot, hslot, v, hv, rfl⟩)
  · intro h m hm
    obtain ⟨slot, hslot, v, hv, rfl⟩ := mem_filled.mp hm
    exact h slot hslot v hv

theorem plain_filled (h : ∀ slot ∈ slots, ∀ v ∈ slot.2, Plain v) :
    Plain (object (filled slots)) := by
  constructor
  · intro m hm
    obtain ⟨slot, -, v, -, rfl⟩ := mem_filled.mp hm
    rfl
  · intro m hm
    obtain ⟨slot, hslot, v, hv, rfl⟩ := mem_filled.mp hm
    exact h slot hslot v hv

private theorem filter_filled_of_not_mem {name : String} (h : name ∉ slots.map (·.1)) :
    (filled slots).filter (·.1 == some name) = [] := by
  rw [List.filter_eq_nil_iff]
  intro m hm
  obtain ⟨slot, hslot, v, -, rfl⟩ := mem_filled.mp hm
  have hne : slot.1 ≠ name := by
    rintro rfl
    exact h (List.mem_map_of_mem hslot)
  simpa using hne

private theorem filter_filled (hkeys : (slots.map (·.1)).Nodup) {slot : String × Option Value}
    (hslot : slot ∈ slots) :
    (filled slots).filter (·.1 == some slot.1) = (slot.2.map (some slot.1, ·)).toList := by
  induction slots with
  | nil => simp at hslot
  | cons head slots ih =>
    obtain ⟨hhead, hkeys⟩ := List.nodup_cons.mp hkeys
    have hsplit :
        filled (head :: slots) = (head.2.map (some head.1, ·)).toList ++ filled slots := by
      rw [filled, List.filterMap_cons]
      cases head.2 <;> rfl
    rw [hsplit, List.filter_append]
    rcases List.mem_cons.mp hslot with rfl | hslot
    · rw [filter_filled_of_not_mem hhead]
      cases slot.2 <;> simp
    · have hne : head.1 ≠ slot.1 :=
        (ne_of_mem_of_not_mem (List.mem_map_of_mem hslot) hhead).symm
      rw [ih hkeys hslot]
      cases head.2 <;> simp [hne]

private theorem member?_filled (hkeys : (slots.map (·.1)).Nodup) {slot : String × Option Value}
    (hslot : slot ∈ slots) : member? slot.1 (filled slots) = some slot.2 := by
  rw [member?, filter_filled hkeys hslot]
  cases slot.2 <;> rfl

theorem mapM_map_eq_some {α β γ : Type} {f : α → Option β} {g : γ → α} {k : γ → β} {l : List γ}
    (h : ∀ c ∈ l, f (g c) = some (k c)) : (l.map g).mapM f = some (l.map k) := by
  induction l with
  | nil => rfl
  | cons c l ih =>
    obtain ⟨hc, hl⟩ := List.forall_mem_cons.mp h
    simp [List.mapM_cons, hc, ih hl]

/-- The slots of a written record are found again, in order and with those that are left out. -/
theorem fields?_filled {names : List String} (hnames : slots.map (·.1) = names)
    (hnodup : names.Nodup) : (object (filled slots)).fields? names = some (slots.map (·.2)) := by
  subst hnames
  have hall : (filled slots).all (·.1.isSome) = true := by
    rw [List.all_eq_true]
    intro m hm
    obtain ⟨slot, -, v, -, rfl⟩ := mem_filled.mp hm
    rfl
  rw [fields?, if_pos hall]
  exact mapM_map_eq_some fun slot hslot => member?_filled hnodup hslot

/-! ## Records without empty slots -/

section
variable {members : List (String × Value)} {depth : Nat}

private theorem record_eq_filled :
    record members = object (filled (members.map fun m => (m.1, some m.2))) := by
  have hfilled : filled (members.map fun m => (m.1, some m.2)) =
      members.filterMap (some ∘ fun m => (some m.1, m.2)) := List.filterMap_map
  rw [record, hfilled, List.filterMap_eq_map]

@[simp] theorem nesting_record_le_succ :
    (record members).nesting ≤ depth + 1 ↔ ∀ m ∈ members, m.2.nesting ≤ depth := by
  rw [record_eq_filled, nesting_filled_le_succ, SlotsWithin, List.forall_mem_map]
  simp

@[simp] theorem not_nesting_record_le_zero : ¬ (record members).nesting ≤ 0 :=
  Nat.not_succ_le_zero _

theorem nesting_lt_record {m : String × Value} (h : m ∈ members) :
    m.2.nesting < (record members).nesting :=
  Nat.lt_succ_of_le (nesting_record_le_succ.mp (Nat.le_refl (record members).nesting) m h)

theorem plain_record (h : ∀ m ∈ members, Plain m.2) : Plain (record members) := by
  rw [record_eq_filled]
  refine plain_filled (List.forall_mem_map.mpr fun m hm v hv => ?_)
  obtain rfl := Option.some.inj hv
  exact h m hm

theorem fields?_record {names : List String} (hnames : members.map (·.1) = names)
    (hnodup : names.Nodup) : (record members).fields? names = some (members.map (some ·.2)) := by
  have hslots : (members.map fun m => (m.1, some m.2)).map (·.1) = names := by
    rw [List.map_map]
    exact hnames
  rw [record_eq_filled, fields?_filled hslots hnodup, List.map_map]
  rfl

end

end Value

/-! ## Readers -/

namespace Reader
variable {α : Type}

/-- A reader takes a value for `a` when it may open as many containers as the value does, and
refuses it else. -/
def Reads (read : Reader α) (v : Value) (a : α) : Prop :=
  ∀ depth, read depth v = if v.nesting ≤ depth then some a else none

@[simp] theorem bind_guarded {β : Type} {c : Prop} [Decidable c] (a : α) (f : α → Option β) :
    (if c then some a else none).bind f = if c then f a else none := by
  split <;> rfl

theorem mapM_guarded {β : Type} {f : β → Option α} {write : α → β} {c : α → Prop} [DecidablePred c]
    {as : List α} (h : ∀ a ∈ as, f (write a) = if c a then some a else none) :
    (as.map write).mapM f = if ∀ a ∈ as, c a then some as else none := by
  induction as with
  | nil => simp
  | cons a as ih =>
    obtain ⟨ha, has⟩ := List.forall_mem_cons.mp h
    simp [List.mapM_cons, ha, ih has, ite_and]

theorem reads_list {read : Reader α} {write : α → Value} {as : List α}
    (h : ∀ a ∈ as, Reads read (write a) a) :
    Reads (list read) (.array (as.map write)) as := by
  intro depth
  cases depth with
  | zero => exact (if_neg (Value.not_nesting_array_le_zero _)).symm
  | succ depth =>
    simp only [Value.nesting_array_le_succ, List.forall_mem_map]
    exact mapM_guarded fun a ha => h a ha depth

section
variable {names : List String} {build : Nat → List (Option Value) → Option α} {a : α}

/-- A record is read when what is made of its slots is. -/
theorem reads_filled (slots : List (String × Option Value)) (hnames : slots.map (·.1) = names)
    (hnodup : names.Nodup)
    (h : ∀ depth, build depth (slots.map (·.2)) =
      if Value.SlotsWithin depth slots then some a else none) :
    Reads (enter fun depth v => v.fields? names >>= build depth)
      (.object (Value.filled slots)) a := by
  intro depth
  cases depth with
  | zero => exact (if_neg (by simp [Value.nesting])).symm
  | succ depth =>
    simp only [enter, Value.nesting_filled_le_succ, Value.fields?_filled hnames hnodup]
    exact h depth

theorem reads_record {members : List (String × Value)} (hnames : members.map (·.1) = names)
    (hnodup : names.Nodup)
    (h : ∀ depth, build depth (members.map (some ·.2)) =
      if ∀ m ∈ members, m.2.nesting ≤ depth then some a else none) :
    Reads (enter fun depth v => v.fields? names >>= build depth) (.record members) a := by
  intro depth
  cases depth with
  | zero => exact (if_neg Value.not_nesting_record_le_zero).symm
  | succ depth =>
    simp only [enter, Value.nesting_record_le_succ, Value.fields?_record hnames hnodup]
    exact h depth

end

/-! ### Slots read one by one -/

@[simp] theorem required_some (read : Reader α) (depth : Nat) (v : Value) :
    required read depth (some v) = read depth v := rfl

@[simp] theorem orElse_some (a : α) (read : Reader α) (depth : Nat) (v : Value) :
    orElse a read depth (some v) = read depth v := rfl

@[simp] theorem text_text (depth : Nat) (s : String) : text depth (.text s) = some s := rfl

@[simp] theorem word_text (read : String → Option α) (depth : Nat) (s : String) :
    word read depth (.text s) = read s := by
  cases depth <;> rfl

@[simp] theorem integer_int32 (depth : Nat) (n : Int32) :
    integer 32 depth (.int n.toInt) = some n.toInt := by
  have hlow := n.le_toInt
  have hhigh := n.toInt_lt
  exact if_pos (by simp [Decimal.fits]; omega)

@[simp] theorem integer_int64 (depth : Nat) (n : Int64) :
    integer 64 depth (.int n.toInt) = some n.toInt := by
  have hlow := n.le_toInt
  have hhigh := n.toInt_lt
  exact if_pos (by simp [Decimal.fits]; omega)

@[simp] theorem bool_bool (depth : Nat) (b : Bool) : bool depth (.bool b) = some b := rfl

theorem optional_reads {read : Reader α} {write : α → Value} {o : Option α}
    (hnull : ∀ a ∈ o, write a ≠ .null) (h : ∀ a ∈ o, Reads read (write a) a) (depth : Nat) :
    optional read depth (o.map write) =
      if ∀ v ∈ o.map write, v.nesting ≤ depth then some o else none := by
  cases o with
  | none => simp [optional]
  | some a =>
    have hread : optional read depth (some (write a)) = (read depth (write a)).map some := by
      rw [optional]
      exact hnull a rfl
    have hwithin : (∀ v ∈ some (write a), v.nesting ≤ depth) ↔ (write a).nesting ≤ depth := by
      simp
    rw [Option.map_some, hread, h a rfl depth, if_congr hwithin rfl rfl]
    split <;> rfl

@[simp] theorem optional_text (o : Option String) (depth : Nat) :
    optional text depth (o.map .text) = some o := by
  cases o <;> rfl

@[simp] theorem orElse_flag (b : Bool) (depth : Nat) :
    orElse false bool depth (if b then some (.bool true) else none) = some b := by
  cases b <;> rfl

end Reader

end SchemaDocs.Json
