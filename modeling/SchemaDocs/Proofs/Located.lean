import Mathlib.Data.List.Pairwise
import SchemaDocs.Proofs.Fault
import SchemaDocs.Proofs.KeyMap

/-!
# Things in the order of their places

A walk meets things at places, and a list of what it meets is told by two facts: which thing stands
where, and that places come in their order. The first fault of such a walk is then the fault at the
least place that has one, whatever the walk does. Main statements: `Located.firstFault_iff`,
`foldlM_eq_error_iff`.
-/

namespace SchemaDocs
variable {α β ε κ π ρ σ : Type}

/-- A list of all things with the places where they stand, in the order of the places. -/
structure Located (r : π → π → Prop) (stands : π → α → Prop) (l : List (π × α)) : Prop where
  sorted : l.Pairwise fun x y => r x.1 y.1
  mem_iff : ∀ p a, (p, a) ∈ l ↔ stands p a

/-- The things of a list with their positions, counted from `i`. -/
def numbered (l : List α) (i : Nat) : List (Nat × α) := (l.zipIdx i).map Prod.swap

@[simp] theorem map_snd_numbered (l : List α) (i : Nat) : (numbered l i).map (·.2) = l := by
  rw [numbered, List.map_map]
  exact List.zipIdx_map_fst i l

theorem numbered_cons (a : α) (l : List α) (i : Nat) :
    numbered (a :: l) i = (i, a) :: numbered l (i + 1) := rfl

namespace Located
variable {r : π → π → Prop} {R : κ → κ → Prop} {stands stands' : π → α → Prop} {l l' : List (π × α)}

theorem congr (h : Located r stands l) (hsame : ∀ p a, stands p a ↔ stands' p a) :
    Located r stands' l :=
  ⟨h.sorted, fun p a => (h.mem_iff p a).trans (hsame p a)⟩

theorem singleton (p : π) (a : α) :
    Located r (fun q b => q = p ∧ b = a) [(p, a)] :=
  ⟨List.pairwise_singleton _ _, fun q b => by simp⟩

theorem append (h : Located r stands l) (h' : Located r stands' l')
    (hcross : ∀ p a q b, stands p a → stands' q b → r p q) :
    Located r (fun p a => stands p a ∨ stands' p a) (l ++ l') := by
  constructor
  · refine List.pairwise_append.mpr ⟨h.sorted, h'.sorted, fun x hx y hy => ?_⟩
    exact hcross _ _ _ _ ((h.mem_iff _ _).mp hx) ((h'.mem_iff _ _).mp hy)
  · intro p a
    rw [List.mem_append, h.mem_iff, h'.mem_iff]

theorem map (place : π → κ) {g : α → β} (h : Located r stands l)
    (hr : ∀ p q, r p q → R (place p) (place q)) :
    Located R (fun k b => ∃ p a, place p = k ∧ g a = b ∧ stands p a)
      (l.map fun x => (place x.1, g x.2)) := by
  constructor
  · exact List.pairwise_map.mpr (h.sorted.imp fun hpq => hr _ _ hpq)
  · intro k b
    simp only [List.mem_map, Prod.exists, Prod.mk.injEq, h.mem_iff]
    exact exists_congr fun p => exists_congr fun a => ⟨fun h => ⟨h.2.1, h.2.2, h.1⟩,
      fun h => ⟨h.2.2, h.1, h.2.1⟩⟩

theorem positions (l : List α) : Located (· < ·) (fun i a => l[i]? = some a) (numbered l 0) := by
  constructor
  · have hpositions : (l.zipIdx.map (·.2)).Pairwise (· < ·) := by
      rw [List.zipIdx_map_snd]
      exact List.pairwise_lt_range'
    rw [List.pairwise_map] at hpositions
    exact List.pairwise_map.mpr hpositions
  · intro i a
    rw [← List.mk_mem_zipIdx_iff_getElem?, numbered, List.mem_map]
    constructor
    · intro h
      obtain ⟨x, hx, hswap⟩ := h
      cases hswap
      exact hx
    · intro h
      exact ⟨(a, i), h, rfl⟩

theorem entries (m : KeyMap α) : Located (· < ·) (fun key a => m.get? key = some a) m.entries :=
  ⟨m.sorted, fun _ _ => KeyMap.get?_eq_some_iff.symm⟩

/-- Where each thing of a list holds things of its own, these stand at a place inside its place. -/
theorem nest {s : ρ → ρ → Prop} {inner : π → α → List (ρ × β)} {holds : π → α → ρ → β → Prop}
    {place : π → ρ → κ} (h : Located r stands l)
    (hinner : ∀ p a, stands p a → Located s (holds p a) (inner p a))
    (hout : ∀ p q x y, r p q → R (place p x) (place q y))
    (hin : ∀ p x y, s x y → R (place p x) (place p y)) :
    Located R (fun k b => ∃ p a x, place p x = k ∧ stands p a ∧ holds p a x b)
      (l.flatMap fun e => (inner e.1 e.2).map fun y => (place e.1 y.1, y.2)) := by
  constructor
  · rw [List.pairwise_flatMap]
    constructor
    · intro e he
      have hsorted := (hinner e.1 e.2 ((h.mem_iff _ _).mp he)).sorted
      exact List.pairwise_map.mpr (hsorted.imp fun hxy => hin _ _ _ hxy)
    · refine h.sorted.imp fun hpq => ?_
      simp only [List.forall_mem_map]
      exact fun x _ y _ => hout _ _ _ _ hpq
  · intro k b
    simp only [List.mem_flatMap, List.mem_map, Prod.exists, Prod.mk.injEq]
    constructor
    · intro hmem
      obtain ⟨p, a, hpa, x, _, hx, rfl, rfl⟩ := hmem
      have hstands := (h.mem_iff p a).mp hpa
      exact ⟨p, a, x, rfl, hstands, ((hinner p a hstands).mem_iff _ _).mp hx⟩
    · intro hmem
      obtain ⟨p, a, x, rfl, hstands, hx⟩ := hmem
      exact ⟨p, a, (h.mem_iff p a).mpr hstands, x, b,
        ((hinner p a hstands).mem_iff _ _).mpr hx, rfl, rfl⟩

theorem before_or_before (h : Located r stands l) {p q : π} {a b : α} (hp : stands p a)
    (hq : stands q b) (hne : p ≠ q) : r p q ∨ r q p := by
  have hpairs : l.Pairwise fun x y => r x.1 y.1 ∨ r y.1 x.1 := h.sorted.imp .inl
  have : Std.Symm fun x y : π × α => r x.1 y.1 ∨ r y.1 x.1 := ⟨fun _ _ => Or.symm⟩
  exact hpairs.forall ((h.mem_iff p a).mpr hp) ((h.mem_iff q b).mpr hq)
    fun heq => hne (congrArg Prod.fst heq)

theorem mem_before_iff [Std.Asymm r] (h : Located r stands l) {before after : List (π × α)}
    {p q : π} {a b : α} (hsplit : l = before ++ (p, a) :: after) :
    (q, b) ∈ before ↔ stands q b ∧ r q p := by
  subst hsplit
  obtain ⟨-, hrest, hbefore⟩ := List.pairwise_append.mp h.sorted
  constructor
  · intro hq
    exact ⟨(h.mem_iff q b).mp (List.mem_append_left _ hq), hbefore _ hq _ List.mem_cons_self⟩
  · intro hq
    rcases List.mem_append.mp ((h.mem_iff q b).mpr hq.1) with hmem | hmem
    · exact hmem
    · rcases List.mem_cons.mp hmem with heq | hmem
      · cases heq
        exact absurd hq.2 (Std.Irrefl.irrefl p)
      · exact absurd hq.2 (Std.Asymm.asymm _ _ ((List.pairwise_cons.mp hrest).1 _ hmem))

/-- The first fault is that of the least place with a fault. -/
theorem firstFault_iff [Std.Asymm r] (h : Located r stands l) (fault : π → α → ε → Prop) {e : ε} :
    FirstFault (fun x e => fault x.1 x.2 e) l e ↔ ∃ p a, stands p a ∧ fault p a e ∧
      ∀ q b, stands q b → r q p → ∀ e', ¬ fault q b e' := by
  constructor
  · intro hfirst
    obtain ⟨before, ⟨p, a⟩, after, hsplit, hbefore, hfault⟩ := hfirst
    have hp : (p, a) ∈ l := hsplit ▸ List.mem_append_right _ List.mem_cons_self
    refine ⟨p, a, (h.mem_iff p a).mp hp, hfault, fun q b hq hqp => ?_⟩
    exact hbefore _ ((h.mem_before_iff hsplit).mpr ⟨hq, hqp⟩)
  · intro hleast
    obtain ⟨p, a, hp, hfault, hnone⟩ := hleast
    obtain ⟨before, after, hsplit⟩ := List.append_of_mem ((h.mem_iff p a).mpr hp)
    refine ⟨before, (p, a), after, hsplit, fun x hx => ?_, hfault⟩
    obtain ⟨hq, hqp⟩ := (h.mem_before_iff hsplit).mp hx
    exact hnone _ _ hq hqp

theorem firstFault_entries_iff {m : KeyMap α} {fault : String → α → ε → Prop}
    {allowed : String → α → Prop} {e : ε}
    (hallowed : ∀ key a, m.get? key = some a → ((∀ e', ¬ fault key a e') ↔ allowed key a)) :
    FirstFault (fun x e => fault x.1 x.2 e) m.entries e ↔ ∃ key a, m.get? key = some a ∧
      fault key a e ∧ ∀ key' a', m.get? key' = some a' → key' < key → allowed key' a' := by
  rw [(entries m).firstFault_iff fault]
  constructor
  · intro h
    obtain ⟨key, a, ha, hfault, hless⟩ := h
    exact ⟨key, a, ha, hfault, fun key' a' ha' hlt =>
      (hallowed key' a' ha').mp (hless key' a' ha' hlt)⟩
  · intro h
    obtain ⟨key, a, ha, hfault, hless⟩ := h
    exact ⟨key, a, ha, hfault, fun key' a' ha' hlt =>
      (hallowed key' a' ha').mpr (hless key' a' ha' hlt)⟩

end Located

/-- A run over a list stops at the first fault, where `kept` is what the run keeps of the part that
is done, and what fails after that part is what has a fault. -/
theorem foldlM_eq_error_iff {f : σ → α → Except ε σ} (kept : List α → σ → Prop)
    {fault : α → ε → Prop} {l : List α} {s : σ} {e : ε} (hstart : kept [] s)
    (hkeep : ∀ done a rest t t', l = done ++ a :: rest → kept done t → f t a = .ok t' →
      kept (done ++ [a]) t')
    (hfault : ∀ done a rest t e', l = done ++ a :: rest → kept done t →
      (f t a = .error e' ↔ fault a e')) :
    l.foldlM f s = .error e ↔ FirstFault fault l e := by
  suffices hrun : ∀ done rest t, l = done ++ rest → kept done t →
      (rest.foldlM f t = .error e ↔ FirstFault fault rest e) from hrun [] l s rfl hstart
  intro done rest
  induction rest generalizing done with
  | nil =>
    intro t _ _
    simpa using pure_ne_error
  | cons a rest ih =>
    intro t hsplit ht
    have hsplit' : l = (done ++ [a]) ++ rest := by simpa using hsplit
    rw [List.foldlM_cons, bind_eq_error_iff, firstFault_cons, hfault done a rest t e hsplit ht]
    refine or_congr_right ?_
    simp only [← hfault done a rest t _ hsplit ht]
    cases hnext : f t a with
    | error e' => simp
    | ok t' => simpa using ih _ t' hsplit' (hkeep done a rest t t' hsplit ht hnext)

theorem foldlM_eq_error_iff_of_forall {f : σ → α → Except ε σ} {fault : α → ε → Prop} {l : List α}
    {e : ε} (hfault : ∀ a ∈ l, ∀ s e', f s a = .error e' ↔ fault a e') (s : σ) :
    l.foldlM f s = .error e ↔ FirstFault fault l e := by
  refine foldlM_eq_error_iff (fun _ _ => True) trivial (fun _ _ _ _ _ _ _ _ => trivial) ?_
  intro done a rest t e' hsplit _
  exact hfault a (hsplit ▸ List.mem_append_right _ List.mem_cons_self) t e'

end SchemaDocs
