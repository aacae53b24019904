import Mathlib.Data.List.Basic
import SchemaDocs.Proofs.Except

/-!
# The first of several faults

A list of things is checked one after the other, and the first that has a fault decides the error.
Which it is does not depend on how the list is cut into parts that are checked in turn.
-/

namespace SchemaDocs
variable {ε α β : Type} {fault : α → ε → Prop} {l r : List α} {a : α} {e : ε}

/-- The first thing of a list that has a fault, has the given one. -/
def FirstFault (fault : α → ε → Prop) (l : List α) (e : ε) : Prop :=
  ∃ before a after, l = before ++ a :: after ∧ (∀ b ∈ before, ∀ e', ¬ fault b e') ∧ fault a e

@[simp] theorem not_firstFault_nil : ¬ FirstFault fault [] e := by
  intro h
  obtain ⟨before, a, after, hsplit, -⟩ := h
  simp at hsplit

@[simp] theorem firstFault_cons : FirstFault fault (a :: l) e ↔
    fault a e ∨ (∀ e', ¬ fault a e') ∧ FirstFault fault l e := by
  constructor
  · intro h
    obtain ⟨before, b, after, hsplit, hbefore, hb⟩ := h
    cases before with
    | nil =>
      cases hsplit
      exact .inl hb
    | cons c before =>
      cases hsplit
      obtain ⟨ha, hbefore⟩ := List.forall_mem_cons.mp hbefore
      exact .inr ⟨ha, before, b, after, rfl, hbefore, hb⟩
  · intro h
    rcases h with ha | ⟨ha, before, b, after, rfl, hbefore, hb⟩
    · exact ⟨[], a, l, rfl, by simp, ha⟩
    · exact ⟨a :: before, b, after, rfl, List.forall_mem_cons.mpr ⟨ha, hbefore⟩, hb⟩

theorem firstFault_congr {fault' : α → ε → Prop} (h : ∀ a ∈ l, ∀ e, fault a e ↔ fault' a e) :
    FirstFault fault l e ↔ FirstFault fault' l e := by
  induction l with
  | nil => simp
  | cons a l ih =>
    obtain ⟨ha, hl⟩ := List.forall_mem_cons.mp h
    simp only [firstFault_cons, ha, ih hl]

theorem firstFault_map {g : β → α} {l : List β} :
    FirstFault fault (l.map g) e ↔ FirstFault (fun b => fault (g b)) l e := by
  induction l with
  | nil => simp
  | cons b l ih => simp only [List.map_cons, firstFault_cons, ih]

theorem exists_firstFault_iff : (∃ e, FirstFault fault l e) ↔ ∃ a ∈ l, ∃ e, fault a e := by
  induction l with
  | nil => simp
  | cons a l ih =>
    by_cases ha : ∃ e, fault a e
    · obtain ⟨e, he⟩ := ha
      exact iff_of_true ⟨e, by simp [he]⟩ ⟨a, List.mem_cons_self, e, he⟩
    · simp only [not_exists] at ha
      simp [ha, ih]

theorem forall_not_firstFault_iff :
    (∀ e, ¬ FirstFault fault l e) ↔ ∀ a ∈ l, ∀ e, ¬ fault a e := by
  have h : (¬ ∃ e, FirstFault fault l e) ↔ ¬ ∃ a ∈ l, ∃ e, fault a e :=
    not_congr exists_firstFault_iff
  simpa using h

theorem firstFault_append : FirstFault fault (l ++ r) e ↔
    FirstFault fault l e ∨ (∀ a ∈ l, ∀ e', ¬ fault a e') ∧ FirstFault fault r e := by
  induction l with
  | nil => simp
  | cons a l ih =>
    rw [List.cons_append, firstFault_cons, firstFault_cons, ih, List.forall_mem_cons, and_or_left,
      or_assoc, and_assoc]

theorem firstFault_flatMap {g : β → List α} {l : List β} :
    FirstFault fault (l.flatMap g) e ↔ FirstFault (fun b => FirstFault fault (g b)) l e := by
  induction l with
  | nil => simp
  | cons b l ih =>
    rw [List.flatMap_cons, firstFault_append, firstFault_cons, ih, forall_not_firstFault_iff]

theorem mapM_eq_error_iff {f : α → Except ε β} :
    l.mapM f = .error e ↔ FirstFault (fun a e => f a = .error e) l e := by
  induction l with
  | nil => simpa using pure_ne_error
  | cons a l ih =>
    rw [List.mapM_cons, bind_eq_error_iff, firstFault_cons]
    simp only [bind_pure_eq_error_iff, ih, exists_and_right, exists_ok_iff, ne_eq]

end SchemaDocs
