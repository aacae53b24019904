import SchemaDocs.Proofs.Located
import SchemaDocs.Proofs.Section.Assignment

/-!
# Members that offend

A member offends if it names no package, or one that a member before it has named, be it a member
of its own section or of one whose key is less. Assignment fails exactly where a member offends, and
reports the first. Main statement: `assign_offence`.
-/

namespace SchemaDocs

open Doc (Package Chapter)

namespace Assignment

/-- Where a member stands: in the section with a key, at a position in its list. -/
structure Occurrence where
  key : String
  index : Nat

namespace Occurrence

/-- The order of occurrences: by key, and inside a section by position. -/
inductive Before : Occurrence → Occurrence → Prop
  | sections {k k' : String} {i j : Nat} : k < k' → Before ⟨k, i⟩ ⟨k', j⟩
  | members {k : String} {i j : Nat} : i < j → Before ⟨k, i⟩ ⟨k, j⟩

instance : Std.Asymm Before where
  asymm o o' h h' := by
    cases h with
    | sections hk =>
      cases h' with
      | sections hk' => exact String.lt_asymm hk hk'
      | members => exact String.lt_irrefl _ hk
    | members hi =>
      cases h' with
      | sections hk' => exact String.lt_irrefl _ hk'
      | members hi' => exact Nat.lt_asymm hi hi'

/-- A section, but not the default one, has a member there. -/
def Names (config : Configuration) (o : Occurrence) (member : String) : Prop :=
  o.key ≠ defaultKey ∧ ∃ s, config.sections.get? o.key = some s ∧ s.members[o.index]? = some member

/-- What is wrong with a member. -/
inductive Offends (config : Configuration) (ps : List Package) (o : Occurrence) (member : String) :
    AssignmentError → Prop
  | unmatched :
    memberPosition? ps member = none → Offends config ps o member (.unmatched member o.key)
  | taken {o' : Occurrence} {member' : String} {i : Nat} {p : Package} :
    memberPosition? ps member = some i → ps[i]? = some p →
    o'.Before o → o'.Names config member' → memberPosition? ps member' = some i →
    Offends config ps o member (.claimedTwice p.id o'.key o.key)

end Occurrence

variable {config : Configuration} {ps : List Package} {cs : List Claim} {e : AssignmentError}

/-- All members with their occurrences. -/
def located (config : Configuration) : List (Occurrence × String) :=
  config.sections.entries.flatMap fun e =>
    (if e.1 = defaultKey then [] else numbered e.2.members 0).map fun y => (⟨e.1, y.1⟩, y.2)

private theorem map_located (config : Configuration) :
    (located config).map (fun x => (x.1.key, x.2)) = occurrences config := by
  rw [located, occurrences, List.map_flatMap]
  refine List.flatMap_congr ?_
  rintro ⟨key, s⟩ -
  by_cases hkey : key = defaultKey
  · simp [hkey]
  · simp only [hkey, if_false]
    conv_rhs => rw [← map_snd_numbered s.members 0]
    rw [List.map_map, List.map_map]
    rfl

private theorem located_spec (config : Configuration) :
    Located Occurrence.Before (Occurrence.Names config) (located config) := by
  have hinner (key : String) (s : Section) : Located (· < ·)
      (fun i member => key ≠ defaultKey ∧ s.members[i]? = some member)
      (if key = defaultKey then [] else numbered s.members 0) := by
    split
    · rename_i hkey
      exact ⟨List.Pairwise.nil, by simp [hkey]⟩
    · rename_i hkey
      exact (Located.positions s.members).congr fun i member => (and_iff_right hkey).symm
  refine ((Located.entries config.sections).nest (fun key s _ => hinner key s)
    (fun _ _ _ _ h => .sections h) fun _ _ _ h => .members h).congr fun o member => ?_
  constructor
  · intro h
    obtain ⟨key, s, i, rfl, hs, hkey, hmember⟩ := h
    exact ⟨hkey, s, hs, hmember⟩
  · intro h
    obtain ⟨hkey, s, hs, hmember⟩ := h
    exact ⟨o.key, s, o.index, rfl, hs, hkey, hmember⟩

private theorem Answers.find?_eq_some_iff {os : List (String × String)} (h : Answers ps os cs)
    {i : Nat}
    {c : Claim} : cs.find? (·.position = i) = some c ↔ c ∈ cs ∧ c.position = i := by
  constructor
  · intro hfind
    exact ⟨List.mem_of_find?_eq_some hfind, by simpa using List.find?_some hfind⟩
  · intro hmem
    obtain ⟨hc, hposition⟩ := hmem
    cases hfind : cs.find? (·.position = i) with
    | none => exact absurd hposition (by simpa using List.find?_eq_none.mp hfind c hc)
    | some c' =>
      have hposition' : c'.position = i := by simpa using List.find?_some hfind
      rw [List.inj_on_of_nodup_map h.distinct (List.mem_of_find?_eq_some hfind) hc
        (hposition'.trans hposition.symm)]

private theorem Answers.exists_claim_iff {os : List (String × String)} (h : Answers ps os cs)
    {i : Nat}
    {key : String} : (∃ c ∈ cs, c.key = key ∧ c.position = i) ↔
      ∃ member, (key, member) ∈ os ∧ memberPosition? ps member = some i := by
  have hmem : (key, some i) ∈ cs.map (fun c => (c.key, some c.position)) ↔
      (key, some i) ∈ os.map fun o => (o.1, memberPosition? ps o.2) := by
    rw [h.matched]
  simpa using hmem

private theorem Answers.claim_eq_error_iff {os : List (String × String)} (h : Answers ps os cs)
    {key member : String} : Assignment.claim ps cs key member = .error e ↔
      memberPosition? ps member = none ∧ e = .unmatched member key ∨
      ∃ i p c, memberPosition? ps member = some i ∧ ps[i]? = some p ∧ c ∈ cs ∧ c.position = i ∧
        e = .claimedTwice p.id c.key key := by
  unfold Assignment.claim
  split
  · rename_i hnone
    simp [hnone, eq_comm]
  · rename_i i hi
    obtain ⟨p, hp⟩ : ∃ p, ps[i]? = some p :=
      ⟨_, List.getElem?_eq_getElem (memberPosition?_lt hi)⟩
    split
    · rename_i first hfirst
      obtain ⟨hmem, hposition⟩ := h.find?_eq_some_iff.mp hfirst
      rw [hp]
      constructor
      · intro hclaim
        cases hclaim
        exact .inr ⟨i, p, first, hi, hp, hmem, hposition, rfl⟩
      · intro h
        rcases h with ⟨hnone, -⟩ | ⟨j, q, c, hj, hq, hc, hposition, rfl⟩
        · rw [hi] at hnone
          cases hnone
        · obtain rfl : i = j := Option.some.inj (hi.symm.trans hj)
          obtain rfl : p = q := Option.some.inj (hp.symm.trans hq)
          rw [h.find?_eq_some_iff.mpr ⟨hc, hposition⟩] at hfirst
          cases hfirst
          rfl
    · rename_i hnone
      have hfree : ∀ c ∈ cs, c.position ≠ i := by simpa using hnone
      constructor
      · intro hclaim
        cases hclaim
      · intro h
        rcases h with ⟨hnone, -⟩ | ⟨j, q, c, hj, -, hc, hposition, -⟩
        · rw [hi] at hnone
          cases hnone
        · rw [hi] at hj
          cases hj
          exact absurd hposition (hfree c hc)

/-- After the members before it, a member is refused exactly if it offends. -/
theorem Answers.claim_eq_error_iff_offends {done rest : List (Occurrence × String)}
    {o : Occurrence} {member : String} (hsplit : located config = done ++ (o, member) :: rest)
    (h : Answers ps (done.map fun x => (x.1.key, x.2)) cs) :
    Assignment.claim ps cs o.key member = .error e ↔ o.Offends config ps member e := by
  have hbefore (o' : Occurrence) (member' : String) :
      (o', member') ∈ done ↔ o'.Names config member' ∧ o'.Before o :=
    (located_spec config).mem_before_iff hsplit
  rw [h.claim_eq_error_iff]
  constructor
  · intro h
    rcases h with ⟨hnone, rfl⟩ | ⟨i, p, c, hi, hp, hc, hposition, rfl⟩
    · exact .unmatched hnone
    · obtain ⟨member', hmem, hmember'⟩ := h.exists_claim_iff.mp ⟨c, hc, rfl, hposition⟩
      obtain ⟨⟨o', _⟩, hdone, heq⟩ := List.mem_map.mp hmem
      obtain ⟨hkey, rfl⟩ := Prod.mk.inj heq
      obtain ⟨hnames, hless⟩ := (hbefore _ _).mp hdone
      rw [← hkey]
      exact .taken hi hp hless hnames hmember'
  · intro hoffends
    cases hoffends with
    | unmatched hnone => exact .inl ⟨hnone, rfl⟩
    | @taken o' member' i p hi hp hless hnames hmember' =>
      have hmem := List.mem_map_of_mem (f := fun x : Occurrence × String => (x.1.key, x.2))
        ((hbefore o' member').mpr ⟨hnames, hless⟩)
      obtain ⟨c, hc, hkey, hposition⟩ := h.exists_claim_iff.mpr ⟨member', hmem, hmember'⟩
      exact .inr ⟨i, p, c, hi, hp, hc, hposition, by rw [hkey]⟩

private theorem claims_eq_error_iff_firstFault : claims config ps = .error e ↔
    FirstFault (fun x e => x.1.Offends config ps x.2 e) (located config) e := by
  rw [claims, ← map_located, List.foldlM_map]
  refine foldlM_eq_error_iff (fun done cs => Answers ps (done.map fun x => (x.1.key, x.2)) cs)
    ⟨rfl, List.nodup_nil⟩ ?_ ?_
  · intro done x rest cs cs' _ hdone hclaim
    rw [List.map_append]
    exact hdone.claim hclaim
  · intro done x rest cs e' hsplit hdone
    exact hdone.claim_eq_error_iff_offends hsplit

private theorem exists_offends_iff : (∃ (o : Occurrence) (member : String),
      o.Names config member ∧ ∃ e, o.Offends config ps member e) ↔
    (∃ (o : Occurrence) (member : String), o.Names config member ∧
      memberPosition? ps member = none) ∨
    ∃ (o o' : Occurrence) (member member' : String) (i : Nat), o ≠ o' ∧ o.Names config member ∧
      o'.Names config member' ∧ memberPosition? ps member = some i ∧
      memberPosition? ps member' = some i := by
  constructor
  · intro h
    obtain ⟨o, member, hnames, e, hoffends⟩ := h
    cases hoffends with
    | unmatched hnone => exact .inl ⟨o, member, hnames, hnone⟩
    | @taken o' member' i p hi hp hless hnames' hi' =>
      refine .inr ⟨o, o', member, member', i, ?_, hnames, hnames', hi, hi'⟩
      rintro rfl
      exact Std.Asymm.asymm _ _ hless hless
  · intro h
    rcases h with ⟨o, member, hnames, hnone⟩ |
      ⟨o, o', member, member', i, hne, hnames, hnames', hi, hi'⟩
    · exact ⟨o, member, hnames, _, .unmatched hnone⟩
    · have hp := List.getElem?_eq_getElem (memberPosition?_lt hi)
      rcases (located_spec config).before_or_before hnames hnames' hne with hless | hless
      · exact ⟨o', member', hnames', _, .taken hi' hp hless hnames hi⟩
      · exact ⟨o, member, hnames, _, .taken hi hp hless hnames' hi'⟩

end Assignment

open Assignment

private theorem assign_eq_error_iff {e : AssignmentError} :
    assign config ps = .error e ↔ claims config ps = .error e := by
  rw [assign]
  exact bind_pure_eq_error_iff

/-- Assignment fails if and only if some member of a named section matches no package, or two of
them match one; and it reports the first member that offends, by the order of section keys and then
of members: with its section if it matches nothing, else with the package, the section that has
claimed it before, and its own. -/
theorem assign_offence (config : Configuration) (ps : List Package) :
    ((∃ e, assign config ps = .error e) ↔
      (∃ (o : Occurrence) (member : String), o.Names config member ∧
        memberPosition? ps member = none) ∨
      ∃ (o o' : Occurrence) (member member' : String) (i : Nat), o ≠ o' ∧ o.Names config member ∧
        o'.Names config member' ∧ memberPosition? ps member = some i ∧
        memberPosition? ps member' = some i) ∧
    ∀ e, assign config ps = .error e ↔ ∃ (o : Occurrence) (member : String),
      o.Names config member ∧ o.Offends config ps member e ∧
        ∀ (o' : Occurrence) (member' : String), o'.Names config member' → o'.Before o →
          ∀ e', ¬ o'.Offends config ps member' e' := by
  constructor
  · simp only [assign_eq_error_iff, claims_eq_error_iff_firstFault]
    rw [exists_firstFault_iff, ← exists_offends_iff]
    simp only [Prod.exists, (located_spec config).mem_iff]
  · intro e
    rw [assign_eq_error_iff, claims_eq_error_iff_firstFault]
    exact (located_spec config).firstFault_iff fun o member e =>
      o.Offends config ps member e

-- The later section names the same package by its display name, which goes before its other member.
example : assign ⟨KeyMap.ofList [("accounts", ⟨"", ["users", "svc.billing"], "", 0⟩),
      ("money", ⟨"", ["Billing", "nothing"], "", 0⟩)]⟩ teamsPackages =
    .error (.claimedTwice "svc.billing" "accounts" "money") :=
  rfl

end SchemaDocs
