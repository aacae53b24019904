import SchemaDocs.Proofs.Section.Entry
import SchemaDocs.Proofs.Toml.Statement

/-!
# Weights that a configuration states as text

Where all else in a configuration is as it may be, a section whose weight is stated as a text is
accepted if and only if the text holds a decimal integer of 64 bits, and its weight is that integer.
Main statement: `fromText_weight`.
-/

namespace SchemaDocs

namespace Section

variable {m : Memory} {dir key text : String}

private theorem allowedEntry_weight_iff : AllowedEntry m dir key "weight" (.string text) ↔
    ∃ n, HoldsInteger text n ∧ -2 ^ 63 ≤ n ∧ n ≤ 2 ^ 63 - 1 := by
  simp only [← Decimal.fits_64_iff]
  constructor
  · intro h
    generalize hentry : "weight" = entry at h
    cases h with
    | weightText hn hfits => exact ⟨_, hn, hfits⟩
    | _ => exact absurd hentry (by decide)
  · rintro ⟨n, hn, hfits⟩
    exact .weightText hn hfits

private theorem entryFault_weight (h : ¬ ∃ n, HoldsInteger text n ∧ -2 ^ 63 ≤ n ∧ n ≤ 2 ^ 63 - 1) :
    EntryFault m dir key "weight" (.string text) (.invalidWeight key) := by
  refine .weight (fun n => nofun) fun text' n htext hn => ?_
  cases htext
  exact Bool.eq_false_iff.mpr fun hfits => h ⟨n, hn, Decimal.fits_64_iff.mp hfits⟩

/-- A table in which the weight of a section is stated as a text, and all else is as it may be. -/
structure StatesWeight (m : Memory) (dir : String) (table : KeyMap Toml.Value)
    (key text : String) : Prop where
  plain : PlainName key
  stated : ∃ entries, table.get? key = some (.table entries) ∧
    (KeyMap.ofList entries).get? "weight" = some (.string text) ∧
    ∀ entry v, (KeyMap.ofList entries).get? entry = some v → entry ≠ "weight" →
      AllowedEntry m dir key entry v
  others : ∀ key' v, table.get? key' = some v → key' ≠ key → AllowedSection m dir key' v

variable {table : KeyMap Toml.Value}

private theorem StatesWeight.allowed_iff (h : StatesWeight m dir table key text) :
    (∀ key' v, table.get? key' = some v → AllowedSection m dir key' v) ↔
      ∃ n, HoldsInteger text n ∧ -2 ^ 63 ≤ n ∧ n ≤ 2 ^ 63 - 1 := by
  obtain ⟨entries, hsection, hweight, hentries⟩ := h.stated
  have hdecides : AllowedEntry m dir key "weight" (.string text) ↔ _ := allowedEntry_weight_iff
  rw [← hdecides]
  constructor
  · intro hall
    obtain ⟨-, entries', htable, hallowed⟩ := hall key _ hsection
    cases htable
    exact hallowed "weight" _ hweight
  · intro hallowed key' v hv
    by_cases hkey : key' = key
    · subst hkey
      cases hv.symm.trans hsection
      refine ⟨h.plain, entries, rfl, fun entry w hw => ?_⟩
      by_cases hentry : entry = "weight"
      · subst hentry
        cases hw.symm.trans hweight
        exact hallowed
      · exact hentries entry w hw hentry
    · exact h.others key' v hv hkey

private theorem StatesWeight.sectionFault (h : StatesWeight m dir table key text)
    (hno : ¬ ∃ n, HoldsInteger text n ∧ -2 ^ 63 ≤ n ∧ n ≤ 2 ^ 63 - 1) :
    ∃ v, table.get? key = some v ∧ SectionFault m dir key v (.invalidWeight key) := by
  obtain ⟨entries, hsection, hweight, hentries⟩ := h.stated
  refine ⟨_, hsection, .entry h.plain hweight (entryFault_weight hno) fun entry w hw hlt => ?_⟩
  exact hentries entry w hw fun heq => String.lt_irrefl _ (heq ▸ hlt)

end Section

namespace Configuration

open Section

variable {m : Memory} {dir key text s : String} {table : KeyMap Toml.Value}
  {config : Configuration}

/-- The weight of a section that was read is the integer that its text holds. -/
theorem weight_of_statesWeight (hs : StatesWeight m dir table key s)
    (h : ofTable m.textAt dir table = .ok config) :
    ∃ sec, config.sections.get? key = some sec ∧ HoldsInteger s sec.weight.toInt := by
  obtain ⟨entries, hsection, hweight, -⟩ := hs.stated
  obtain ⟨sec, hvalue, hget⟩ := exists_section_of_ofTable h hsection
  obtain ⟨_, htable, hread, -⟩ := weight_of_ofValue hvalue
  cases htable
  exact ⟨sec, hget, readWeight?_iff_holdsInteger.mp (hread _ hweight)⟩

private theorem error_of_statesWeight (htable : Configuration.table text = .ok table)
    (hs : StatesWeight m dir table key s) :
    ∀ e, ofTable m.textAt dir table = .error e → e = .invalidWeight key := by
  intro e he
  have hbounded := bounded_of_table htable
  have hno : ¬ ∃ n, HoldsInteger s n ∧ -2 ^ 63 ≤ n ∧ n ≤ 2 ^ 63 - 1 := by
    rw [← hs.allowed_iff, ← exists_ofTable_iff hbounded, exists_ok_iff]
    exact fun hall => hall e he
  obtain ⟨v, hv, hfault⟩ := hs.sectionFault hno
  have herror := (ofTable_eq_error_iff hbounded).mpr
    ⟨key, v, hv, hfault, fun key' v' hv' hlt => hs.others key' v' hv' (ne_of_lt hlt)⟩
  exact Except.error.inj (he.symm.trans herror)

/-- A configuration of one section, of which only the weight is stated. -/
def weightText (key weight : String) : String :=
  String.ofList (Toml.statement key "weight" weight)

private theorem statesWeight_weightText (hplain : PlainName key) (s : String) :
    ∃ table, Configuration.table (weightText key s) = .ok table ∧
      StatesWeight m dir table key s := by
  have hbare : Toml.IsBare "weight".toList := ⟨by decide, by decide⟩
  have htable : Configuration.table (weightText key s) =
      .ok (KeyMap.ofList [(key, .table [("weight", .string s)])]) := by
    rw [Configuration.table, weightText, String.toList_ofList, Toml.parse?_statement key s hbare]
  refine ⟨_, htable, hplain, ⟨[("weight", .string s)], ?_, ?_, ?_⟩, ?_⟩
  · exact KeyMap.get?_ofList_singleton.mpr ⟨rfl, rfl⟩
  · exact KeyMap.get?_ofList_singleton.mpr ⟨rfl, rfl⟩
  · intro entry v hv hentry
    exact absurd (KeyMap.get?_ofList_singleton.mp hv).1 hentry
  · intro key' v hv hkey
    exact absurd (KeyMap.get?_ofList_singleton.mp hv).1 hkey

/-- A section whose weight is stated as a text is accepted if and only if the text holds, between
white space, a decimal integer of 64 bits; its weight is then that integer and no other, and so a
weight that is written is the weight that is read. Else it is the weight that is at fault. This
goes for every configuration in which all else is as it may be, and every text can be stated in
one. -/
theorem fromText_weight (dir : String) (m : Memory) :
    (∀ text table key s, Configuration.table text = .ok table → StatesWeight m dir table key s →
      ∃ r, (fromText dir text : StateM Memory _).run m = (r, m) ∧
        ((∃ config, r = .ok config) ↔ ∃ n, HoldsInteger s n ∧ -2 ^ 63 ≤ n ∧ n ≤ 2 ^ 63 - 1) ∧
        (∀ config, r = .ok config → ∃ sec, config.sections.get? key = some sec ∧
          ∀ n, HoldsInteger s n ↔ n = sec.weight.toInt) ∧
        (∀ w : Int64, (∃ config sec, r = .ok config ∧ config.sections.get? key = some sec ∧
          sec.weight = w) ↔ IsWritten s w.toInt) ∧
        ∀ e, r = .error e → e = .invalidWeight key) ∧
    ∀ key s, PlainName key → ∃ table, Configuration.table (weightText key s) = .ok table ∧
      StatesWeight m dir table key s := by
  constructor
  · intro text table key s htable hs
    have haccepted : (∃ config, ofTable m.textAt dir table = .ok config) ↔
        ∃ n, HoldsInteger s n ∧ -2 ^ 63 ≤ n ∧ n ≤ 2 ^ 63 - 1 :=
      (exists_ofTable_iff (bounded_of_table htable)).trans hs.allowed_iff
    refine ⟨_, run_fromText_of_table htable, haccepted, fun config hconfig => ?_, fun w => ?_,
      error_of_statesWeight htable hs⟩
    · obtain ⟨sec, hget, hholds⟩ := weight_of_statesWeight hs hconfig
      refine ⟨sec, hget, fun n => ⟨fun hn => hn.unique hholds, ?_⟩⟩
      rintro rfl
      exact hholds
    · rw [← holdsInteger_iff_isWritten]
      constructor
      · rintro ⟨config, sec, hconfig, hget, rfl⟩
        obtain ⟨sec', hget', hholds⟩ := weight_of_statesWeight hs hconfig
        cases hget.symm.trans hget'
        exact hholds
      · intro hwritten
        obtain ⟨config, hconfig⟩ := haccepted.mpr
          ⟨w.toInt, hwritten, w.le_toInt, Int.le_sub_one_of_lt w.toInt_lt⟩
        obtain ⟨sec, hget, hholds⟩ := weight_of_statesWeight hs hconfig
        exact ⟨config, sec, hconfig, hget, Int64.toInt_inj.mp (hholds.unique hwritten)⟩
  · intro key s hplain
    exact statesWeight_weightText hplain s

/-- The least weight, with more white space and zeros than it needs, and the least number above all
weights. -/
theorem fromText_weight_least :
    (∃ config sec,
      (fromText "" (weightText "users" " -009223372036854775808\n") : StateM Memory _).run .empty =
        (.ok config, .empty) ∧
      config.sections.get? "users" = some sec ∧ sec.weight = Int64.minValue) ∧
    (fromText "" (weightText "users" "9223372036854775808") : StateM Memory _).run .empty =
      (.error (.invalidWeight "users"), .empty) := by
  have hplain : PlainName "users" := canNameFile_iff.mp (by decide)
  constructor
  · have hholds : HoldsInteger " -009223372036854775808\n" (-2 ^ 63) :=
      signed?_trim_eq_some_iff.mp (by decide +kernel)
    obtain ⟨table, htable, hs⟩ := (fromText_weight "" .empty).2 "users" _ hplain
    obtain ⟨r, hrun, haccepted, hweight, -, -⟩ :=
      (fromText_weight "" .empty).1 _ table "users" _ htable hs
    obtain ⟨config, rfl⟩ := haccepted.mpr ⟨_, hholds, by decide, by decide⟩
    obtain ⟨sec, hget, hread⟩ := hweight config rfl
    exact ⟨config, sec, hrun, hget, Int64.toInt_inj.mp ((hread _).mp hholds).symm⟩
  · have hholds : HoldsInteger "9223372036854775808" (2 ^ 63) :=
      signed?_trim_eq_some_iff.mp (by decide +kernel)
    obtain ⟨table, htable, hs⟩ := (fromText_weight "" .empty).2 "users" _ hplain
    obtain ⟨r, hrun, haccepted, -, -, herror⟩ :=
      (fromText_weight "" .empty).1 _ table "users" _ htable hs
    cases r with
    | ok config =>
      obtain ⟨n, hn, -, hhigh⟩ := haccepted.mp ⟨config, rfl⟩
      rw [hn.unique hholds] at hhigh
      exact absurd hhigh (by decide)
    | error e => rw [hrun, herror e rfl]

end Configuration
end SchemaDocs
