import Mathlib.Data.List.Basic

/-!
# The first element with a property

A lookup in a list of records goes through them in order and stops at the first one
that fits. The property need not be decidable; where it is, the first element is the
one that `List.find?` returns.
-/

namespace FirstMatch

variable {α : Type*} {P : α → Prop} {l : List α} {a b : α}

/-- `a` is the first element of the list with the property. -/
def IsFirst (P : α → Prop) (l : List α) (a : α) : Prop :=
  ∃ before after, l = before ++ a :: after ∧ P a ∧ ∀ b ∈ before, ¬P b

/-- The first element with the property is an element with the property. -/
theorem IsFirst.mem (h : IsFirst P l a) : a ∈ l ∧ P a := by
  obtain ⟨before, after, rfl, ha, -⟩ := h
  exact ⟨by simp, ha⟩

/-- Of a longer list, the first element is the new one or, if that does not have the
property, the first one of the rest. -/
theorem isFirst_cons_iff : IsFirst P (b :: l) a ↔ (a = b ∧ P b) ∨ (¬P b ∧ IsFirst P l a) := by
  constructor
  · rintro ⟨before, after, heq, ha, hbefore⟩
    cases before with
    | nil =>
      rw [List.nil_append, List.cons.injEq] at heq
      obtain ⟨rfl, rfl⟩ := heq
      exact Or.inl ⟨rfl, ha⟩
    | cons c before =>
      rw [List.cons_append, List.cons.injEq] at heq
      obtain ⟨rfl, rfl⟩ := heq
      rw [List.forall_mem_cons] at hbefore
      exact Or.inr ⟨hbefore.1, before, after, rfl, ha, hbefore.2⟩
  · rintro (⟨rfl, ha⟩ | ⟨hb, before, after, rfl, ha, hbefore⟩)
    · exact ⟨[], l, rfl, ha, by simp⟩
    · exact ⟨b :: before, after, rfl, ha, List.forall_mem_cons.mpr ⟨hb, hbefore⟩⟩

/-- There is a first element with the property if there is one at all. -/
theorem exists_isFirst_iff : (∃ a, IsFirst P l a) ↔ ∃ a ∈ l, P a := by
  constructor
  · rintro ⟨a, ha⟩
    exact ⟨a, ha.mem⟩
  · induction l with
    | nil => simp
    | cons b l ih =>
      rintro ⟨a, ha, hPa⟩
      by_cases hb : P b
      · exact ⟨b, isFirst_cons_iff.mpr (Or.inl ⟨rfl, hb⟩)⟩
      · rcases List.mem_cons.mp ha with rfl | ha
        · exact absurd hPa hb
        · obtain ⟨c, hc⟩ := ih ⟨a, ha, hPa⟩
          exact ⟨c, isFirst_cons_iff.mpr (Or.inr ⟨hb, hc⟩)⟩

/-- There is at most one first element with the property. -/
theorem IsFirst.unique (ha : IsFirst P l a) (hb : IsFirst P l b) : a = b := by
  induction l with
  | nil => exact absurd ha.mem.1 (by simp)
  | cons c l ih =>
    rcases isFirst_cons_iff.mp ha with ⟨rfl, hPc⟩ | ⟨hPc, ha⟩
    · rcases isFirst_cons_iff.mp hb with ⟨rfl, -⟩ | ⟨hnot, -⟩
      · rfl
      · exact absurd hPc hnot
    · rcases isFirst_cons_iff.mp hb with ⟨-, hPc'⟩ | ⟨-, hb⟩
      · exact absurd hPc' hPc
      · exact ih ha hb

/-- A search for a decidable property finds the first element with it. -/
theorem find?_eq_some_iff {p : α → Bool} (hp : ∀ c ∈ l, p c = true ↔ P c) :
    l.find? p = some a ↔ IsFirst P l a := by
  induction l with
  | nil => exact ⟨fun h => absurd h (by simp), fun h => absurd h.mem.1 (by simp)⟩
  | cons c l ih =>
    obtain ⟨hc, hrest⟩ := List.forall_mem_cons.mp hp
    rw [isFirst_cons_iff, ← ih hrest, List.find?_cons]
    cases hpc : p c with
    | true => simp [hc.mp hpc, eq_comm]
    | false =>
      have hnot : ¬P c := fun h => by
        rw [hc.mpr h] at hpc
        cases hpc
      simp [hnot]

end FirstMatch
