import SchemaDocs.Proofs.Fixpoint

/-!
# Entries that are not used

An entry whose full name is not used plays no part in pruning: whatever stands in its place, a used
name leads to the same type, for it is only looked for where the key makes that name. So lists that
differ in unused entries are pruned to the same list. Main statement: `prune_unused`.
-/

namespace SchemaDocs

open Doc (Package TypeDoc)

variable {ps ps' qs qs' : List Package} {used used' : NameSet} {p p' p'' : Package}

/-- Packages that differ at most in entries whose full names are not in a set. -/
structure SameButUnused (used : NameSet) (p p' : Package) : Prop where
  name : p'.name = p.name
  id : p'.id = p.id
  description : p'.description = p.description
  services : p'.services = p.services
  types : ∀ key, used.contains (Name.qualify p.id key) = true →
    p'.types.get? key = p.types.get? key

namespace SameButUnused

private theorem trans (h : SameButUnused used p p') (h' : SameButUnused used p' p'') :
    SameButUnused used p p'' := by
  constructor
  case name => exact h'.name.trans h.name
  case id => exact h'.id.trans h.id
  case description => exact h'.description.trans h.description
  case services => exact h'.services.trans h.services
  case types => exact fun key hkey => (h'.types key (h.id ▸ hkey)).trans (h.types key hkey)

private theorem insert {key : String} (hkey : ¬ used.contains (Name.qualify p.id key) = true)
    (type : TypeDoc) : SameButUnused used p { p with types := p.types.insert key type } := by
  refine ⟨rfl, rfl, rfl, rfl, fun other hother => ?_⟩
  have hne : other ≠ key := fun heq => hkey (heq ▸ hother)
  rw [KeyMap.get?_insert, if_neg hne]

private theorem erase {key : String} (hkey : ¬ used.contains (Name.qualify p.id key) = true) :
    SameButUnused used p { p with types := p.types.erase key } := by
  refine ⟨rfl, rfl, rfl, rfl, fun other hother => ?_⟩
  have hne : other ≠ key := fun heq => hkey (heq ▸ hother)
  rw [KeyMap.erase, KeyMap.get?_filter]
  cases p.types.get? other <;> simp [Option.filter, hne]

private theorem restrict_eq (h : SameButUnused used p p') : p'.restrict used = p.restrict used := by
  have htypes : (p'.restrict used).types = (p.restrict used).types := by
    apply KeyMap.ext_get?
    intro key
    rw [Scope.get?_restrict, Scope.get?_restrict, h.id]
    split
    · rename_i hkey
      exact h.types key hkey
    · rfl
  simp only [Package.restrict, Package.mk.injEq] at htypes ⊢
  exact ⟨h.name, h.id, h.description, h.services, htypes⟩

private theorem map_restrict_eq (h : List.Forall₂ (SameButUnused used) ps ps') :
    ps'.map (·.restrict used) = ps.map (·.restrict used) := by
  induction h with
  | nil => rfl
  | cons hp _ ih => rw [List.map_cons, List.map_cons, hp.restrict_eq, ih]

private theorem agreeOn (h : List.Forall₂ (SameButUnused used) ps ps') :
    AgreeOn {n | used.contains n = true} ps ps' := by
  have hps := agreeOn_restrict used ps
  have hps' := agreeOn_restrict used ps'
  rw [map_restrict_eq h] at hps'
  exact hps.trans hps'.symm

end SameButUnused

/-- Where some entries that are not used are added, removed or replaced, in whatever packages and
whatever they refer to, pruning has the same result, if it succeeds. -/
theorem prune_unused (h : prune ps = .ok (qs, used))
    (hsame : List.Forall₂ (SameButUnused used) ps ps') (h' : prune ps' = .ok (qs', used')) :
    used' = used ∧ qs' = qs := by
  obtain ⟨-, hused, rfl⟩ := prune_eq_ok_iff.mp h
  obtain ⟨-, hused', rfl⟩ := prune_eq_ok_iff.mp h'
  obtain rfl : used' = used := (SameButUnused.agreeOn hsame).reachable_eq hused hused'
  exact ⟨rfl, SameButUnused.map_restrict_eq hsame⟩

/-- The packages of a loop without the entry that is not used, and with two others: in the package
with the shorter identifier one whose full name starts with the longer, and in the other package one
with the key of a used entry. -/
def crowdedPackages : List Package :=
  [{ loopPackages[0] with
      types := (loopPackages[0].types.erase "Unused").insert "q.Spare"
        (.message "Spare" "" [.mk "peer" "" (.ref "p.q.Node")]) },
    { loopPackages[1] with
      types := loopPackages[1].types.insert "Node"
        (.message "Node" "" [.mk "spare" "" (.ref "p.q.Spare")]) }]

private theorem sameButUnused_crowdedPackages :
    List.Forall₂ (SameButUnused loopNames) loopPackages crowdedPackages := by
  have hfirst : SameButUnused loopNames loopPackages[0] crowdedPackages[0] :=
    (SameButUnused.erase (by decide)).trans (SameButUnused.insert (by decide) _)
  have hsecond : SameButUnused loopNames loopPackages[1] crowdedPackages[1] :=
    SameButUnused.insert (by decide) _
  exact .cons hfirst (.cons hsecond .nil)

theorem prune_unused_crowdedPackages :
    prune loopPackages = .ok (loopPackages.map (·.restrict loopNames), loopNames) ∧
      List.Forall₂ (SameButUnused loopNames) loopPackages crowdedPackages ∧
      prune crowdedPackages = .ok (loopPackages.map (·.restrict loopNames), loopNames) := by
  obtain ⟨⟨qs', used'⟩, h'⟩ : ∃ r, prune crowdedPackages = .ok r := exists_prune_iff.mpr (by cbv)
  obtain ⟨rfl, rfl⟩ := prune_unused prune_loopPackages sameButUnused_crowdedPackages h'
  exact ⟨prune_loopPackages, sameButUnused_crowdedPackages, h'⟩

end SchemaDocs
