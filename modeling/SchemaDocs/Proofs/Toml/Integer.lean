import SchemaDocs.Proofs.KeyMap
import SchemaDocs.Toml.Document

/-!
# Integers of a document

A document states integers of 64 bits only, at whatever depth: a numeral out of range makes the
whole document unreadable. Main statement: `bounded_parse?`.
-/

namespace SchemaDocs.Toml

namespace Value

/-- An integer stands somewhere in a value. -/
inductive Contains : Value → Int → Prop
  | integer (n : Int) : Contains (.integer n) n
  | item {items : List Value} {v : Value} {n : Int} :
    v ∈ items → Contains v n → Contains (.array items) n
  | entry {entries : List (String × Value)} {e : String × Value} {n : Int} :
    e ∈ entries → Contains e.2 n → Contains (.table entries) n

/-- All integers in a value have 64 bits. -/
def Bounded (v : Value) : Prop := ∀ n, v.Contains n → Decimal.fits 64 n = true

theorem bounded_integer {n : Int} : (integer n).Bounded ↔ Decimal.fits 64 n = true := by
  constructor
  · intro h
    exact h n (.integer n)
  · intro h m hm
    cases hm
    exact h

private theorem bounded_array {items : List Value} :
    (array items).Bounded ↔ ∀ v ∈ items, v.Bounded := by
  constructor
  · intro h v hv n hn
    exact h n (.item hv hn)
  · intro h n hn
    cases hn with
    | item hv hn => exact h _ hv n hn

private theorem bounded_table {entries : List (String × Value)} :
    (table entries).Bounded ↔ ∀ e ∈ entries, e.2.Bounded := by
  constructor
  · intro h e he n hn
    exact h n (.entry he hn)
  · intro h n hn
    cases hn with
    | entry he hn => exact h _ he n hn

theorem Bounded.of_mem_ofList {entries : List (String × Value)} (h : (table entries).Bounded) :
    ∀ e ∈ (KeyMap.ofList entries).entries, e.2.Bounded :=
  fun e he => bounded_table.mp h e (KeyMap.mem_of_mem_ofList he)

@[simp] theorem bounded_string (s : String) : (string s).Bounded := fun _ h => nomatch h

@[simp] theorem bounded_boolean (b : Bool) : (boolean b).Bounded := fun _ h => nomatch h

@[simp] theorem bounded_float (spelling : List Char) : (float spelling).Bounded :=
  fun _ h => nomatch h

@[simp] theorem bounded_datetime (spelling : List Char) : (datetime spelling).Bounded :=
  fun _ h => nomatch h

end Value

open Value

/-! ## Tables under construction -/

namespace Draft

private theorem finishEntries_eq (es : List (String × Item)) :
    finishEntries es = es.map fun e => (e.1, finishItem e.2) := by
  induction es with
  | nil => rfl
  | cons e es ih => rw [finishEntries, ih, List.map_cons]

private theorem finishTables_eq (ts : List Draft) :
    finishTables ts = ts.map fun t => .table t.finish := by
  induction ts with
  | nil => rfl
  | cons t ts ih => rw [finishTables, ih, List.map_cons]

/-- All integers in a table have 64 bits. -/
def Bounded (t : Draft) : Prop := ∀ e ∈ t.entries, (finishItem e.2).Bounded

private theorem bounded_finish {t : Draft} : (Value.table t.finish).Bounded ↔ t.Bounded := by
  obtain ⟨implied, dotted, es⟩ := t
  rw [finish, finishEntries_eq, bounded_table, List.forall_mem_map]
  rfl

private theorem bounded_tables {ts : List Draft} :
    (finishItem (.tables ts)).Bounded ↔ ∀ t ∈ ts, t.Bounded := by
  rw [finishItem, finishTables_eq, bounded_array, List.forall_mem_map]
  simp only [bounded_finish]

variable {t t' : Draft} {key : String} {item : Item}

private theorem bounded_mk_nil (implied dotted : Bool) : (mk implied dotted []).Bounded := nofun

private theorem Bounded.get? (h : t.Bounded) (hitem : t.get? key = some item) :
    (finishItem item).Bounded := by
  obtain ⟨before, after, hentries, -⟩ := List.lookup_eq_some_iff.mp hitem
  exact h (key, item) (hentries ▸ List.mem_append_right _ List.mem_cons_self)

private theorem Bounded.set (h : t.Bounded) (hitem : (finishItem item).Bounded) :
    (t.set key item).Bounded := by
  intro e he
  rcases List.mem_cons.mp he with rfl | he
  · exact hitem
  · exact h e (List.mem_of_mem_filter he)

private theorem Bounded.alter {dotted : Bool} {change : Draft → Option Draft} {path : List String}
    (hchange : ∀ u u', u.Bounded → change u = some u' → u'.Bounded) (h : t.Bounded)
    (halter : t.alter dotted change path = some t') : t'.Bounded := by
  induction path generalizing t t' with
  | nil => exact hchange t t' h halter
  | cons key path ih =>
    rw [Draft.alter] at halter
    split at halter
    · obtain ⟨child, hchild, hset⟩ := Option.bind_eq_some_iff.mp halter
      cases hset
      exact h.set (bounded_finish.mpr (ih (bounded_mk_nil _ _) hchild))
    · cases halter
    · rename_i child hget
      split at halter
      · cases halter
      · obtain ⟨child', hchild', hset⟩ := Option.bind_eq_some_iff.mp halter
        cases hset
        exact h.set (bounded_finish.mpr (ih (bounded_finish.mp (h.get? hget)) hchild'))
    · rename_i ts hget
      obtain ⟨last, hlast, halter⟩ := Option.bind_eq_some_iff.mp halter
      obtain ⟨last', hlast', hset⟩ := Option.bind_eq_some_iff.mp halter
      cases hset
      have hts := bounded_tables.mp (h.get? hget)
      refine h.set (bounded_tables.mpr fun u hu => ?_)
      rcases List.mem_append.mp hu with hu | hu
      · exact hts u (List.dropLast_subset _ hu)
      · rw [List.mem_singleton.mp hu]
        exact ih (hts last (List.mem_of_getLast? hlast)) hlast'

private theorem Bounded.addValue {path : List String} {v : Value} (h : t.Bounded) (hv : v.Bounded)
    (hadd : t.addValue path key v = some t') : t'.Bounded := by
  refine h.alter (fun u u' hu hchange => ?_) hadd
  split at hchange
  · cases hchange
  · split at hchange
    · cases hchange
    · cases hchange
      exact hu.set hv

private theorem Bounded.define {path : List String} (h : t.Bounded)
    (hdefine : t.define path key = some t') : t'.Bounded := by
  refine h.alter (fun u u' hu hchange => ?_) hdefine
  split at hchange
  · cases hchange
    exact hu.set (bounded_finish.mpr (bounded_mk_nil _ _))
  · rename_i child hget
    split at hchange
    · cases hchange
      have hchild : child.Bounded := bounded_finish.mp (hu.get? hget)
      have hsame : (mk false false child.entries).Bounded := hchild
      exact hu.set (bounded_finish.mpr hsame)
    · cases hchange
  · cases hchange

private theorem Bounded.append {path : List String} (h : t.Bounded)
    (happend : t.append path key = some t') : t'.Bounded := by
  refine h.alter (fun u u' hu hchange => ?_) happend
  split at hchange
  · cases hchange
    exact hu.set (bounded_tables.mpr (List.forall_mem_singleton.mpr (bounded_mk_nil _ _)))
  · rename_i ts hget
    cases hchange
    refine hu.set (bounded_tables.mpr fun s hs => ?_)
    rcases List.mem_append.mp hs with hs | hs
    · exact bounded_tables.mp (hu.get? hget) s hs
    · rw [List.mem_singleton.mp hs]
      exact bounded_mk_nil _ _
  · cases hchange

end Draft

/-! ## Values -/

variable {s rest : List Char} {v : Value}

private theorem bounded_of_bounded? {n : Int} (h : bounded n s = some (v, rest)) : v.Bounded := by
  unfold bounded at h
  split at h
  · rename_i hfits
    cases h
    exact bounded_integer.mpr hfits
  · cases h

private theorem bounded_based? {base : Nat} (h : based? base s = some (v, rest)) : v.Bounded := by
  obtain ⟨digits, -, h⟩ := Option.bind_eq_some_iff.mp h
  exact bounded_of_bounded? h

private theorem bounded_integer? (h : integer? s = some (v, rest)) : v.Bounded := by
  unfold integer? at h
  split at h
  · exact bounded_based? h
  · exact bounded_based? h
  · exact bounded_based? h
  · obtain ⟨digits, -, h⟩ := Option.bind_eq_some_iff.mp h
    exact bounded_of_bounded? h

private theorem bounded_of_ite_float {c : Prop} [Decidable c] {spelling after : List Char}
    (h : (if c then none else some (Value.float spelling, after)) = some (v, rest)) :
    v.Bounded := by
  split at h
  · cases h
  · cases h
    exact bounded_float _

private theorem bounded_digitFloat? (h : digitFloat? s = some (v, rest)) : v.Bounded := by
  obtain ⟨⟨whole, after⟩, -, h⟩ := Option.bind_eq_some_iff.mp h
  simp only [Option.bind_eq_bind] at h
  split at h
  · obtain ⟨power, -, h⟩ := Option.bind_eq_some_iff.mp h
    exact bounded_of_ite_float h
  · exact bounded_of_ite_float h

private theorem bounded_wordFloat? (h : wordFloat? s = some (v, rest)) : v.Bounded := by
  unfold wordFloat? at h
  split at h
  · cases h
    exact bounded_float _
  · cases h
    exact bounded_float _
  · cases h

private theorem bounded_datetime? (h : datetime? s = some (v, rest)) : v.Bounded := by
  obtain ⟨after, -, heq⟩ := Option.map_eq_some_iff.mp h
  cases heq
  exact bounded_datetime _

private theorem bounded_number? (h : number? s = some (v, rest)) : v.Bounded := by
  simp only [number?, Option.or_eq_some_iff] at h
  rcases h with h | ⟨-, h | ⟨-, h | ⟨-, h⟩⟩⟩
  · exact bounded_datetime? h
  · exact bounded_digitFloat? h
  · exact bounded_wordFloat? h
  · exact bounded_integer? h

private theorem bounded_word? (h : word? s = some (v, rest)) : v.Bounded := by
  unfold word? at h
  split at h
  · cases h
    exact bounded_boolean _
  · cases h
    exact bounded_boolean _
  · cases h

/-- The readers of values, of the items of an array and of the pairs of a table keep the bound. -/
structure ReadersBounded (fuel : Nat) : Prop where
  value {depth : Nat} {s rest : List Char} {v : Value} :
    value? fuel depth s = some (v, rest) → v.Bounded
  items {depth : Nat} {s rest : List Char} {vs : List Value} :
    items? fuel depth s = some (vs, rest) → ∀ v ∈ vs, v.Bounded
  pairs {depth : Nat} {t t' : Draft} {s rest : List Char} :
    pairs? fuel depth t s = some (t', rest) → t.Bounded → t'.Bounded

section
variable {fuel depth : Nat} (ih : ReadersBounded fuel)
include ih

private theorem ReadersBounded.value_succ (h : value? (fuel + 1) depth s = some (v, rest)) :
    v.Bounded := by
  rw [value?.eq_def] at h
  split at h
  case h_1 => cases h
  case h_2 fuel' items hfuel =>
    cases hfuel
    cases depth with
    | zero => cases h
    | succ depth =>
      obtain ⟨⟨vs, after⟩, hitems, hv⟩ := Option.map_eq_some_iff.mp h
      cases hv
      exact bounded_array.mpr (ih.items hitems)
  case h_3 fuel' pairs hfuel =>
    cases hfuel
    cases depth with
    | zero => cases h
    | succ depth =>
      dsimp only at h
      split at h
      · cases h
        exact Draft.bounded_finish.mpr (Draft.bounded_mk_nil _ _)
      · obtain ⟨⟨t, after⟩, hpairs, hv⟩ := Option.bind_eq_some_iff.mp h
        cases hv
        exact Draft.bounded_finish.mpr (ih.pairs hpairs (Draft.bounded_mk_nil _ _))
  case h_4 =>
    simp only [Option.or_eq_some_iff, Option.map_eq_some_iff] at h
    rcases h with ⟨⟨text, after⟩, -, hv⟩ | ⟨-, hv | ⟨-, hv⟩⟩
    · cases hv
      exact bounded_string _
    · exact bounded_word? hv
    · exact bounded_number? hv

private theorem ReadersBounded.items_succ {vs : List Value}
    (h : items? (fuel + 1) depth s = some (vs, rest)) : ∀ v ∈ vs, v.Bounded := by
  rw [items?] at h
  obtain ⟨start, -, h⟩ := Option.bind_eq_some_iff.mp h
  split at h
  · cases h
    exact List.forall_mem_nil _
  · obtain ⟨⟨v, after⟩, hv, h⟩ := Option.bind_eq_some_iff.mp h
    obtain ⟨next, -, h⟩ := Option.bind_eq_some_iff.mp h
    split at h
    · obtain ⟨⟨vs', last⟩, hvs, h⟩ := Option.bind_eq_some_iff.mp h
      cases h
      exact List.forall_mem_cons.mpr ⟨ih.value hv, ih.items hvs⟩
    · cases h
      exact List.forall_mem_singleton.mpr (ih.value hv)
    · cases h

private theorem ReadersBounded.pairs_succ {t t' : Draft}
    (h : pairs? (fuel + 1) depth t s = some (t', rest))
    (ht : t.Bounded) : t'.Bounded := by
  rw [pairs?] at h
  obtain ⟨⟨path, key, start⟩, -, h⟩ := Option.bind_eq_some_iff.mp h
  obtain ⟨next, -, h⟩ := Option.bind_eq_some_iff.mp h
  obtain ⟨⟨v, after⟩, hv, h⟩ := Option.bind_eq_some_iff.mp h
  obtain ⟨u, hadd, h⟩ := Option.bind_eq_some_iff.mp h
  have hu : u.Bounded := ht.addValue (ih.value hv) hadd
  split at h
  · exact ih.pairs h hu
  · cases h
    exact hu
  · cases h

end

private theorem readersBounded (fuel : Nat) : ReadersBounded fuel := by
  induction fuel with
  | zero =>
    constructor
    · intro depth s rest v h
      rw [value?] at h
      cases h
    · intro depth s rest vs h
      rw [items?] at h
      cases h
    · intro depth t t' s rest h
      rw [pairs?] at h
      cases h
  | succ fuel ih => exact ⟨ih.value_succ, ih.items_succ, ih.pairs_succ⟩

/-! ## Documents -/

private theorem bounded_line? {p p' : Progress} (hp : p.root.Bounded)
    (h : line? p s = some (p', rest)) :
    p'.root.Bounded := by
  unfold line? at h
  split at h
  · obtain ⟨⟨path, key, start⟩, -, h⟩ := Option.bind_eq_some_iff.mp h
    obtain ⟨next, -, h⟩ := Option.bind_eq_some_iff.mp h
    obtain ⟨last, -, h⟩ := Option.bind_eq_some_iff.mp h
    obtain ⟨after, -, h⟩ := Option.bind_eq_some_iff.mp h
    obtain ⟨root, hroot, h⟩ := Option.bind_eq_some_iff.mp h
    cases h
    exact hp.append hroot
  · obtain ⟨⟨path, key, start⟩, -, h⟩ := Option.bind_eq_some_iff.mp h
    obtain ⟨next, -, h⟩ := Option.bind_eq_some_iff.mp h
    obtain ⟨after, -, h⟩ := Option.bind_eq_some_iff.mp h
    obtain ⟨root, hroot, h⟩ := Option.bind_eq_some_iff.mp h
    cases h
    exact hp.define hroot
  · obtain ⟨⟨path, key, start⟩, -, h⟩ := Option.bind_eq_some_iff.mp h
    obtain ⟨next, -, h⟩ := Option.bind_eq_some_iff.mp h
    obtain ⟨⟨v, after⟩, hv, h⟩ := Option.bind_eq_some_iff.mp h
    obtain ⟨last, -, h⟩ := Option.bind_eq_some_iff.mp h
    obtain ⟨root, hroot, h⟩ := Option.bind_eq_some_iff.mp h
    cases h
    have hbounded : v.Bounded := (readersBounded _).value hv
    exact hp.alter (fun u u' hu hadd => hu.addValue hbounded hadd) hroot

private theorem bounded_lines? {fuel : Nat} {p p' : Progress} (hp : p.root.Bounded)
    (h : lines? fuel p s = some p') : p'.root.Bounded := by
  induction fuel generalizing p s with
  | zero =>
    rw [lines?] at h
    cases h
  | succ fuel ih =>
    rw [lines?.eq_def] at h
    split at h
    case h_1 => cases h
    case h_2 =>
      cases h
      exact hp
    case h_3 fuel' _ hfuel _ =>
      cases hfuel
      obtain ⟨after, -, h⟩ := Option.bind_eq_some_iff.mp h
      exact ih hp h
    case h_4 fuel' hfuel _ _ =>
      cases hfuel
      split at h
      · exact ih hp h
      · obtain ⟨⟨q, after⟩, hline, h⟩ := Option.bind_eq_some_iff.mp h
        exact ih (bounded_line? hp hline) h

/-- All integers of a document have 64 bits. -/
theorem bounded_parse? {table : KeyMap Value} (h : parse? s = some table) :
    ∀ e ∈ table.entries, e.2.Bounded := by
  obtain ⟨p, hlines, h⟩ := Option.bind_eq_some_iff.mp h
  cases h
  have hroot : p.root.Bounded := bounded_lines? (Draft.bounded_mk_nil _ _) hlines
  exact (Draft.bounded_finish.mpr hroot).of_mem_ofList

end SchemaDocs.Toml
