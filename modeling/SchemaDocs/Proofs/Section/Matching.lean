import SchemaDocs.Proofs.Section.Assignment

/-!
# Which package a member names

A package matches a member by its identifier, else by its display name, else by the end of its
identifier. The better match wins, and the earlier of two packages that match alike; so the order of
the packages is only asked where the best match is not the only one. Main statement:
`memberPosition?_priority`.
-/

namespace SchemaDocs

open Doc (Package)

/-- The package at a position is the first of the list with a property. -/
def IsFirst (q : Package → Prop) (ps : List Package) (i : Nat) : Prop :=
  (∃ p, ps[i]? = some p ∧ q p) ∧ ∀ j < i, ∀ p, ps[j]? = some p → ¬ q p

theorem findIdx?_eq_some_iff_isFirst {q : Package → Prop} {ps : List Package} {i : Nat}
    [DecidablePred q] : ps.findIdx? (q ·) = some i ↔ IsFirst q ps i := by
  rw [List.findIdx?_eq_some_iff_getElem, IsFirst]
  constructor
  · intro h
    obtain ⟨hi, hq, hbefore⟩ := h
    refine ⟨⟨ps[i], List.getElem?_eq_getElem hi, of_decide_eq_true hq⟩, fun j hj p hp => ?_⟩
    obtain ⟨hlt, rfl⟩ := List.getElem?_eq_some_iff.mp hp
    simpa using hbefore j hj
  · intro h
    obtain ⟨⟨p, hp, hq⟩, hbefore⟩ := h
    obtain ⟨hi, rfl⟩ := List.getElem?_eq_some_iff.mp hp
    refine ⟨hi, decide_eq_true hq, fun j hj => ?_⟩
    simpa using hbefore j hj _ (List.getElem?_eq_getElem (Nat.lt_trans hj hi))

private theorem Name.endsIn_iff {name member : String} :
    Name.endsIn name member = true ↔ ∃ start, name = start ++ "." ++ member := by
  rw [Name.endsIn, List.isSuffixOf_iff_suffix]
  constructor
  · intro h
    obtain ⟨start, hstart⟩ := h
    refine ⟨String.ofList start, String.toList_inj.mp ?_⟩
    simp [← hstart]
  · intro h
    obtain ⟨start, rfl⟩ := h
    exact ⟨start.toList, by simp⟩

/-- How well a package matches a member, 1 being the best. -/
inductive HasTier (member : String) (p : Package) : Nat → Prop
  | id : p.id = member → HasTier member p 1
  | name : p.id ≠ member → p.name = member → HasTier member p 2
  | ending {start : String} :
    p.id ≠ member → p.name ≠ member → p.id = start ++ "." ++ member → HasTier member p 3

/-- The package at a position has the least tier, and is the first that has it. -/
structure BestMatch (member : String) (ps : List Package) (i : Nat) (p : Package) (tier : Nat) :
    Prop where
  package : ps[i]? = some p
  hasTier : HasTier member p tier
  least : ∀ j q u, ps[j]? = some q → HasTier member q u → tier < u ∨ tier = u ∧ i ≤ j

variable {member : String} {ps : List Package} {p q : Package} {i j tier u : Nat}

namespace HasTier

private theorem one_iff : HasTier member p 1 ↔ p.id = member := by
  constructor
  · intro h
    cases h with
    | id hid => exact hid
  · exact .id

private theorem two_iff : HasTier member p 2 ↔ p.id ≠ member ∧ p.name = member := by
  constructor
  · intro h
    cases h with
    | name hid hname => exact ⟨hid, hname⟩
  · exact fun h => .name h.1 h.2

private theorem three_iff : HasTier member p 3 ↔
    p.id ≠ member ∧ p.name ≠ member ∧ Name.endsIn p.id member = true := by
  rw [Name.endsIn_iff]
  constructor
  · intro h
    cases h with
    | ending hid hname hend => exact ⟨hid, hname, _, hend⟩
  · intro h
    obtain ⟨hid, hname, start, hend⟩ := h
    exact .ending hid hname hend

private theorem unique (h : HasTier member p tier) (h' : HasTier member p u) : tier = u := by
  cases h with
  | id hid =>
    cases h' with
    | id => rfl
    | name hid' | ending hid' => exact absurd hid hid'
  | name hid hname =>
    cases h' with
    | id hid' => exact absurd hid' hid
    | name => rfl
    | ending _ hname' => exact absurd hname hname'
  | ending hid hname =>
    cases h' with
    | id hid' => exact absurd hid' hid
    | name _ hname' => exact absurd hname' hname
    | ending => rfl

private theorem one_le (h : HasTier member p tier) : 1 ≤ tier := by
  cases h <;> decide

private theorem two_le (h : HasTier member p tier) (hid : p.id ≠ member) : 2 ≤ tier := by
  cases h with
  | id h => exact absurd h hid
  | name | ending => decide

private theorem three_le (h : HasTier member p tier) (hid : p.id ≠ member) (hname : p.name ≠ member)
    :
    3 ≤ tier := by
  cases h with
  | id h => exact absurd h hid
  | name _ h => exact absurd h hname
  | ending => decide

end HasTier

private theorem BestMatch.position_unique (h : BestMatch member ps i p tier)
    (h' : BestMatch member ps j q u) : i = j := by
  have hle := h.least j q u h'.package h'.hasTier
  have hle' := h'.least i p tier h.package h.hasTier
  omega

/-- The first package of a tier that none undercuts is the best match. -/
theorem IsFirst.bestMatch {property : Package → Prop} (h : IsFirst property ps i)
    (htier : ∀ p ∈ ps, property p ↔ HasTier member p tier)
    (hleast : ∀ p ∈ ps, ∀ u, HasTier member p u → tier ≤ u) :
    ∃ p, BestMatch member ps i p tier := by
  obtain ⟨⟨p, hp, hproperty⟩, hbefore⟩ := h
  refine ⟨p, hp, (htier p (List.mem_of_getElem? hp)).mp hproperty, fun j q u hq hu => ?_⟩
  have hmem := List.mem_of_getElem? hq
  rcases Nat.lt_or_eq_of_le (hleast q hmem u hu) with hlt | rfl
  · exact .inl hlt
  · refine .inr ⟨rfl, Nat.le_of_not_lt fun hji => ?_⟩
    exact hbefore j hji q hq ((htier q hmem).mpr hu)

private theorem exists_bestMatch (h : memberPosition? ps member = some i) :
    ∃ p tier, BestMatch member ps i p tier := by
  simp only [memberPosition?, Option.or_eq_some_iff, List.findIdx?_eq_none_iff,
    decide_eq_false_iff_not] at h
  rcases h with hid | ⟨hnoid, hname | ⟨hnoname, hend⟩⟩
  · have hfirst : IsFirst (·.id = member) ps i := findIdx?_eq_some_iff_isFirst.mp hid
    obtain ⟨p, hp⟩ := hfirst.bestMatch (fun p _ => HasTier.one_iff.symm) fun p _ u hu => hu.one_le
    exact ⟨p, 1, hp⟩
  · have hfirst : IsFirst (·.name = member) ps i := findIdx?_eq_some_iff_isFirst.mp hname
    obtain ⟨p, hp⟩ := hfirst.bestMatch
      (fun p hp => by rw [HasTier.two_iff, and_iff_right (hnoid p hp)])
      fun p hp u hu => hu.two_le (hnoid p hp)
    exact ⟨p, 2, hp⟩
  · have hfirst : IsFirst (Name.endsIn ·.id member = true) ps i := by
      refine findIdx?_eq_some_iff_isFirst.mp ?_
      simpa using hend
    obtain ⟨p, hp⟩ := hfirst.bestMatch
      (fun p hp => by
        rw [HasTier.three_iff, and_iff_right (hnoid p hp), and_iff_right (hnoname p hp)])
      fun p hp u hu => hu.three_le (hnoid p hp) (hnoname p hp)
    exact ⟨p, 3, hp⟩

private theorem exists_hasTier_iff : (∃ tier, HasTier member p tier) ↔
    p.id = member ∨ p.name = member ∨ Name.endsIn p.id member = true := by
  constructor
  · intro h
    obtain ⟨tier, htier⟩ := h
    cases htier with
    | id hid => exact .inl hid
    | name _ hname => exact .inr (.inl hname)
    | ending _ _ hend => exact .inr (.inr (Name.endsIn_iff.mpr ⟨_, hend⟩))
  · intro h
    by_cases hid : p.id = member
    · exact ⟨1, .id hid⟩
    · by_cases hname : p.name = member
      · exact ⟨2, .name hid hname⟩
      · have hend := (h.resolve_left hid).resolve_left hname
        exact ⟨3, HasTier.three_iff.mpr ⟨hid, hname, hend⟩⟩

private theorem memberPosition?_eq_none_iff :
    memberPosition? ps member = none ↔ ∀ p ∈ ps, ∀ tier, ¬ HasTier member p tier := by
  have hnone (p : Package) : (∀ tier, ¬ HasTier member p tier) ↔
      p.id ≠ member ∧ p.name ≠ member ∧ Name.endsIn p.id member = false := by
    rw [← not_exists, exists_hasTier_iff]
    simp
  simp only [memberPosition?, Option.or_eq_none_iff, List.findIdx?_eq_none_iff,
    decide_eq_false_iff_not, hnone, ← forall_and]

private theorem memberPosition?_eq_some_iff :
    memberPosition? ps member = some i ↔ ∃ p tier, BestMatch member ps i p tier := by
  constructor
  · exact exists_bestMatch
  · intro h
    obtain ⟨p, tier, hbest⟩ := h
    cases hposition : memberPosition? ps member with
    | none =>
      have hmem := List.mem_of_getElem? hbest.package
      exact absurd hbest.hasTier (memberPosition?_eq_none_iff.mp hposition p hmem tier)
    | some j =>
      obtain ⟨q, u, hbest'⟩ := exists_bestMatch hposition
      rw [hbest.position_unique hbest']

private theorem exists_memberPosition?_perm {ps' : List Package} (hp : ps[i]? = some p)
    (htier : HasTier member p tier)
    (hothers : ∀ j q u, ps[j]? = some q → HasTier member q u → j ≠ i → tier < u)
    (hperm : ps'.Perm ps) : ∃ j, memberPosition? ps' member = some j ∧ ps'[j]? = some p := by
  have hmem : p ∈ ps' := hperm.mem_iff.mpr (List.mem_of_getElem? hp)
  cases hposition : memberPosition? ps' member with
  | none => exact absurd htier (memberPosition?_eq_none_iff.mp hposition p hmem tier)
  | some j =>
    obtain ⟨q, u, hbest⟩ := exists_bestMatch hposition
    obtain ⟨k, hk⟩ := List.getElem?_of_mem (hperm.mem_iff.mp (List.mem_of_getElem? hbest.package))
    obtain ⟨l, hl⟩ := List.getElem?_of_mem hmem
    have hle := hbest.least l p tier hl htier
    by_cases hki : k = i
    · subst hki
      rw [hp] at hk
      cases hk
      exact ⟨j, rfl, hbest.package⟩
    · have hlt := hothers k q u hk hbest.hasTier hki
      omega

/-- A member names the package of the least tier, and of several with that tier the first; where no
package has a tier it names none. Where only one package has the least tier, it is found in any
order of the list. -/
theorem memberPosition?_priority (ps : List Package) (member : String) :
    (∀ i, memberPosition? ps member = some i ↔ ∃ p tier, BestMatch member ps i p tier) ∧
    (memberPosition? ps member = none ↔ ∀ p ∈ ps, ∀ tier, ¬ HasTier member p tier) ∧
    ∀ (i : Nat) p tier, ps[i]? = some p → HasTier member p tier →
      (∀ (j : Nat) q u, ps[j]? = some q → HasTier member q u → j ≠ i → tier < u) →
      ∀ ps' : List Package, ps'.Perm ps →
        ∃ j, memberPosition? ps' member = some j ∧ ps'[j]? = some p :=
  ⟨fun _ => memberPosition?_eq_some_iff, memberPosition?_eq_none_iff,
    fun _ _ _ hp htier hothers _ hperm => exists_memberPosition?_perm hp htier hothers hperm⟩

/-- The package with the identifier is found before an earlier one whose identifier only ends in
the member, and in the reversed list as well. -/
theorem memberPosition?_priority_teams :
    memberPosition? teamsPackages "users" = some 2 ∧
      BestMatch "users" teamsPackages 2 (.bare "users" "Users") 1 ∧
      HasTier "users" (.bare "svc.users" "Users") 3 ∧
      ∃ j, memberPosition? teamsPackages.reverse "users" = some j ∧
        teamsPackages.reverse[j]? = some (.bare "users" "Users") := by
  obtain ⟨hsome, -, hperm⟩ := memberPosition?_priority teamsPackages "users"
  have hfound : memberPosition? teamsPackages "users" = some 2 := by decide
  have hone : HasTier "users" (.bare "users" "Users") 1 := .id rfl
  have hids : ∀ j < 4, j ≠ 2 → teamsPackages[j]?.map (·.id) ≠ some "users" := by decide
  have hothers (j : Nat) (q : Package) (u : Nat) (hq : teamsPackages[j]? = some q)
      (hu : HasTier "users" q u) (hj : j ≠ 2) : 1 < u := by
    refine hu.two_le fun hid => hids j (List.getElem?_eq_some_iff.mp hq).1 hj ?_
    rw [hq, Option.map_some, hid]
  obtain ⟨p, tier, hbest⟩ := (hsome 2).mp hfound
  cases hbest.package
  obtain rfl := hone.unique hbest.hasTier
  have hending : HasTier "users" (.bare "svc.users" "Users") 3 :=
    HasTier.three_iff.mpr ⟨by decide, by decide, rfl⟩
  exact ⟨hfound, hbest, hending,
    hperm 2 _ 1 rfl hone hothers teamsPackages.reverse (List.reverse_perm _)⟩

end SchemaDocs
