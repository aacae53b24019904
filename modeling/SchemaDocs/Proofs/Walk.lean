import SchemaDocs.Proofs.Foremost

/-!
# Steps of a walk

A walk goes from a type to the types written in it, or from a reference to the declaration that it
names, and records that name. Recorded names are names of entries, and none is recorded twice: so a
walk ends, however the declarations of a list refer to each other, and it enters no more of them
than there are names. Main statement: `reachable_terminates`.
-/

namespace SchemaDocs

open Doc (Package TypeDoc)

/-- The types written directly in a type. -/
def Doc.TypeDoc.parts : TypeDoc → List TypeDoc
  | .message _ _ fields => fields.map (·.type)
  | .map key value => [key, value]
  | .array item => [item]
  | .enum .. | .ref _ | .basic .. => []

theorem Doc.TypeDoc.totalSize_parts_lt (t : TypeDoc) :
    TypeDoc.totalSize t.parts < t.size := by
  cases t <;> simp [parts, size, fieldSize_eq, totalSize]

theorem Doc.TypeDoc.size_lt_of_mem_parts {t u : TypeDoc} (h : u ∈ t.parts) :
    u.size < t.size := by
  obtain ⟨before, after, hparts⟩ := List.append_of_mem h
  have hlt := t.totalSize_parts_lt
  rw [hparts, totalSize_append, totalSize_cons] at hlt
  omega

namespace Scope

/-- Where a walk stands: the names recorded so far, and the types still to visit in order. -/
structure Stage where
  used : NameSet
  types : List TypeDoc

/-- One step of a walk, with the declaration that it enters, if it enters one. -/
inductive Step (scope : Scope) : Stage → Option Target → Stage → Prop
  | descend {used : NameSet} {t : TypeDoc} {rest : List TypeDoc} :
    (∀ name, t ≠ .ref name) → Step scope ⟨used, t :: rest⟩ none ⟨used, t.parts ++ rest⟩
  | pass {used : NameSet} {name : String} {target : Target} {rest : List TypeDoc} :
    scope.resolve name = .ok target → used.contains target.fullName = true →
    Step scope ⟨used, .ref name :: rest⟩ none ⟨used, rest⟩
  | enter {used : NameSet} {name : String} {target : Target} {rest : List TypeDoc} :
    scope.resolve name = .ok target → used.contains target.fullName = false →
    Step scope ⟨used, .ref name :: rest⟩ (some target)
      ⟨used.add target.fullName, target.type :: rest⟩

/-- Where a walk takes no more steps, with its result. -/
inductive Ends (scope : Scope) : Stage → Except ResolutionError NameSet → Prop
  | done {used : NameSet} : Ends scope ⟨used, []⟩ (.ok used)
  | failed {used : NameSet} {name : String} {rest : List TypeDoc} {e : ResolutionError} :
    scope.resolve name = .error e → Ends scope ⟨used, .ref name :: rest⟩ (.error e)

/-- Any number of steps, with the declarations entered on the way. -/
inductive Steps (scope : Scope) : Stage → List Target → Stage → Prop
  | refl (s : Stage) : Steps scope s [] s
  | step {s s' s'' : Stage} {entered : Option Target} {targets : List Target} :
    scope.Step s entered s' → Steps scope s' targets s'' →
    Steps scope s (entered.toList ++ targets) s''

variable {scope : Scope} {s s' : Stage} {entered : Option Target} {targets : List Target}
  {r : Except ResolutionError NameSet}

/-! ## The steps are those of the walk -/

private theorem walk_of_step (h : scope.Step s entered s') :
    scope.walk s.used s.types = scope.walk s'.used s'.types := by
  cases h with
  | @descend used t rest ht =>
    cases t with
    | ref name => exact absurd rfl (ht name)
    | _ => simp [walk, TypeDoc.parts]
  | pass hr hu =>
    rw [walk_ref hr, if_pos ((fullName_of_resolve hr).1 ▸ hu)]
  | enter hr hu =>
    rw [walk_ref hr, if_neg (by simpa [(fullName_of_resolve hr).1] using hu),
      (fullName_of_resolve hr).1]

private theorem walk_of_ends (h : scope.Ends s r) : scope.walk s.used s.types = r := by
  cases h with
  | done => simp [walk]
  | failed hr =>
    rw [walk]
    split
    · rename_i e he
      cases hr.symm.trans he
      rfl
    · rename_i target hok
      cases hr.symm.trans hok

private theorem exists_ends_or_step (scope : Scope) (s : Stage) :
    (∃ r, scope.Ends s r) ∨ ∃ entered s', scope.Step s entered s' := by
  obtain ⟨used, _ | ⟨t, rest⟩⟩ := s
  · exact .inl ⟨_, .done⟩
  · by_cases ht : ∃ name, t = .ref name
    · obtain ⟨name, rfl⟩ := ht
      cases hr : scope.resolve name with
      | error e => exact .inl ⟨_, .failed hr⟩
      | ok target =>
        cases hu : used.contains target.fullName with
        | true => exact .inr ⟨_, _, .pass hr hu⟩
        | false => exact .inr ⟨_, _, .enter hr hu⟩
    · exact .inr ⟨_, _, .descend fun name hname => ht ⟨name, hname⟩⟩

/-! ## Walks end -/

/-- What a walk has still to do: first of all the names not recorded, then the types to visit. -/
def Stage.remaining (scope : Scope) (s : Stage) : Nat × Nat :=
  (scope.pending s.used, TypeDoc.totalSize s.types)

private theorem Step.remaining_lt (h : scope.Step s entered s') :
    Prod.Lex (· < ·) (· < ·) (s'.remaining scope) (s.remaining scope) := by
  cases h with
  | @descend used t rest =>
    refine .right _ ?_
    have hlt := t.totalSize_parts_lt
    simpa using hlt
  | pass =>
    refine .right _ ?_
    simp [TypeDoc.size]
  | enter hr hu =>
    obtain ⟨hname, hmem⟩ := fullName_of_resolve hr
    exact .left _ _ (pending_add_lt (hname ▸ hmem) (by simpa using hu))

private theorem wellFounded_step (scope : Scope) :
    WellFounded fun s' s => ∃ entered, scope.Step s entered s' := by
  refine Subrelation.wf ?_ (InvImage.wf (Stage.remaining scope) (WellFounded.prod_lex
    Nat.lt_wfRel.wf Nat.lt_wfRel.wf))
  intro s' s h
  obtain ⟨entered, hstep⟩ := h
  exact hstep.remaining_lt

private theorem exists_steps_ends (scope : Scope) (s : Stage) : ∃ targets s',
    scope.Steps s targets s' ∧ scope.Ends s' (scope.walk s.used s.types) := by
  induction s using (wellFounded_step scope).induction with
  | _ s ih =>
    rcases exists_ends_or_step scope s with ⟨r, hends⟩ | ⟨entered, s', hstep⟩
    · exact ⟨[], s, .refl s, (walk_of_ends hends).symm ▸ hends⟩
    · obtain ⟨targets, s'', hsteps, hends⟩ := ih s' ⟨entered, hstep⟩
      exact ⟨_, s'', .step hstep hsteps, (walk_of_step hstep).symm ▸ hends⟩

/-! ## What is entered -/

/-- A step enters a declaration under its name and records that, or it records nothing. -/
theorem Step.recorded (h : scope.Step s entered s') :
    entered = none ∧ s'.used = s.used ∨ ∃ target, entered = some target ∧
      scope.resolve target.fullName = .ok target ∧ s.used.contains target.fullName = false ∧
      s'.used = s.used.add target.fullName := by
  cases h with
  | descend => exact .inl ⟨rfl, rfl⟩
  | pass => exact .inl ⟨rfl, rfl⟩
  | enter hr hu =>
    exact .inr ⟨_, rfl, (fullName_of_resolve hr).1.symm ▸ hr, hu, rfl⟩

/-- The declarations entered in a number of steps: each under a name of its own that was not
recorded before, and now is. -/
structure Enters (scope : Scope) (s : Stage) (targets : List Target) (s' : Stage) : Prop where
  resolve : ∀ target ∈ targets, scope.resolve target.fullName = .ok target
  fresh : ∀ target ∈ targets, s.used.contains target.fullName = false
  nodup : (targets.map Target.fullName).Nodup
  used : ∀ n, s'.used.contains n = true ↔
    s.used.contains n = true ∨ n ∈ targets.map Target.fullName

private theorem Steps.enters (h : scope.Steps s targets s') : scope.Enters s targets s' := by
  induction h with
  | refl => exact ⟨nofun, nofun, List.nodup_nil, by simp⟩
  | @step s s' s'' entered targets hstep _ ih =>
    rcases hstep.recorded with ⟨rfl, hused⟩ | ⟨target, rfl, hresolve, hfresh, hused⟩
    · exact ⟨ih.resolve, hused ▸ ih.fresh, ih.nodup, hused ▸ ih.used⟩
    · have hother : ∀ other ∈ targets, other.fullName ≠ target.fullName ∧
          s.used.contains other.fullName = false := by
        intro other hmem
        have hnot := ih.fresh other hmem
        rw [hused, NameSet.contains_add, Bool.or_eq_false_iff] at hnot
        exact ⟨by simpa using hnot.1, hnot.2⟩
      refine ⟨?_, ?_, ?_, fun n => ?_⟩
      · exact List.forall_mem_cons.mpr ⟨hresolve, ih.resolve⟩
      · exact List.forall_mem_cons.mpr ⟨hfresh, fun other hmem => (hother other hmem).2⟩
      · refine List.nodup_cons.mpr ⟨fun hmem => ?_, ih.nodup⟩
        obtain ⟨other, hother', hname⟩ := List.mem_map.mp hmem
        exact (hother other hother').1 hname
      · rw [ih.used, hused, NameSet.mem_add]
        simp [or_assoc, or_comm]

end Scope

private theorem Target.Named.mem_names {ps : List Package} {name : String} {t : Target}
    (h : t.Named ps name) : name ∈ ps.flatMap (·.names) := by
  refine List.mem_flatMap.mpr ⟨t.package, List.mem_of_getElem? h.package, ?_⟩
  exact List.mem_map.mpr ⟨t.key, KeyMap.mem_keys_of_get? h.entry, h.fullName⟩

private theorem named_of_resolve {ps : List Package} {name : String} {t : Target}
    (h : (Scope.ofPackages ps).resolve name = .ok t) : t.Named ps name :=
  (Scope.foremost_of_find? (Scope.resolve_eq_ok_iff.mp h).1).named

/-- What a step of a walk through a list does: it goes from a type to smaller types written in it,
or from a reference to the declaration that it names, an entry of the list whose name was not
recorded before and now is. -/
inductive Advance (ps : List Package) (s : Scope.Stage) : Option Target → Scope.Stage → Prop
  | descend {t : TypeDoc} {inner rest : List TypeDoc} : s.types = t :: rest →
    (∀ u ∈ inner, u ∈ t.parts ∧ u.size < t.size) → Advance ps s none ⟨s.used, inner ++ rest⟩
  | record {target : Target} {rest : List TypeDoc} : s.types = .ref target.fullName :: rest →
    target.Named ps target.fullName → s.used.contains target.fullName = false →
    Advance ps s (some target) ⟨s.used.add target.fullName, target.type :: rest⟩

private theorem advance_of_step {ps : List Package} {s s' : Scope.Stage} {entered : Option Target}
    (h : (Scope.ofPackages ps).Step s entered s') : Advance ps s entered s' := by
  cases h with
  | descend => exact .descend rfl fun u hu => ⟨hu, TypeDoc.size_lt_of_mem_parts hu⟩
  | pass => exact @Advance.descend _ _ _ [] _ rfl nofun
  | enter hr hu =>
    obtain ⟨hname, -⟩ := Scope.fullName_of_resolve hr
    exact .record (by rw [hname]) (hname ▸ named_of_resolve hr) hu

/-- The names of a walk's declarations are no more than the names of entries. -/
theorem length_entered_le {ps : List Package} {s s' : Scope.Stage} {targets : List Target}
    (h : (Scope.ofPackages ps).Enters s targets s') :
    targets.length ≤ (ps.flatMap (·.names)).dedup.length := by
  have hsub : targets.map Target.fullName ⊆ (ps.flatMap (·.names)).dedup := by
    intro n hn
    obtain ⟨target, hmem, rfl⟩ := List.mem_map.mp hn
    exact List.mem_dedup.mpr (named_of_resolve (h.resolve target hmem)).mem_names
  rw [← List.length_map Target.fullName]
  exact (h.nodup.subperm hsub).length_le

/-- The walk from all endpoints ends, whatever the list: every step advances, there is no endless
row of steps, and the walk is one row of them. The declarations entered on any such row are entries
of the list with distinct names, at most as many as the entries have; and what is recorded are their
names. -/
theorem reachable_terminates (ps : List Package) :
    let scope := Scope.ofPackages ps
    let start : Scope.Stage := ⟨KeyMap.empty, ps.flatMap (·.roots)⟩
    (WellFounded fun s' s => ∃ entered, scope.Step s entered s') ∧
    (∀ s entered s', scope.Step s entered s' →
      Advance ps s entered s' ∧ scope.walk s.used s.types = scope.walk s'.used s'.types) ∧
    (∃ targets s, scope.Steps start targets s ∧ scope.Ends s (reachable ps)) ∧
    ∀ targets s, scope.Steps start targets s →
      (∀ target ∈ targets, target.Named ps target.fullName) ∧
      (targets.map Target.fullName).Nodup ∧
      targets.length ≤ (ps.flatMap (·.names)).dedup.length ∧
      ∀ n, s.used.contains n = true ↔ n ∈ targets.map Target.fullName := by
  intro scope start
  refine ⟨Scope.wellFounded_step scope, fun s entered s' h => ?_,
    Scope.exists_steps_ends scope start, fun targets s h => ?_⟩
  · exact ⟨advance_of_step h, Scope.walk_of_step h⟩
  · have henters := h.enters
    refine ⟨fun target hmem => named_of_resolve (henters.resolve target hmem), henters.nodup,
      length_entered_le henters, fun n => ?_⟩
    rw [henters.used]
    simp [start]

end SchemaDocs
