import Mathlib.Data.List.Basic
import Mathlib.Data.List.TakeWhile

/-!
# Lists up to a terminator

What is read of a terminated list ends before the first terminator. A list without
terminators is read whole, and one that ends with its only terminator loses just that.
-/

namespace Terminator

variable {α : Type*} {a : α} {l : List α}

/-- A list whose only terminator is its last element. -/
theorem dropLast_append_of_mem (hmem : a ∈ l) (hinit : a ∉ l.dropLast) : l.dropLast ++ [a] = l := by
  have hsplit := List.dropLast_append_getLast (List.ne_nil_of_mem hmem)
  rw [← hsplit, List.mem_append, List.mem_singleton] at hmem
  rcases hmem with hmem | hlast
  · exact absurd hmem hinit
  · rw [← hlast] at hsplit
    exact hsplit

variable [DecidableEq α]

/-- Behind a part without terminators the reading goes on. -/
theorem takeWhile_append (h : a ∉ l) (rest : List α) :
    (l ++ rest).takeWhile (· ≠ a) = l ++ rest.takeWhile (· ≠ a) := by
  apply List.takeWhile_append_of_pos
  intro b hb
  rw [decide_eq_true_eq]
  rintro rfl
  exact h hb

/-- A list without terminators is read whole. -/
theorem takeWhile_eq_self (h : a ∉ l) : l.takeWhile (· ≠ a) = l := by
  have happend := takeWhile_append h []
  rw [List.append_nil] at happend
  exact happend.trans (List.append_nil l)

/-- What is read before a terminator. -/
theorem takeWhile_append_cons (h : a ∉ l) (rest : List α) :
    (l ++ a :: rest).takeWhile (· ≠ a) = l := by
  rw [takeWhile_append h, List.takeWhile_cons_of_neg (by simp), List.append_nil]

/-- A list of which all but at most one element is read has no terminator before its
last element. -/
theorem not_mem_dropLast_of_length_le (h : l.length ≤ (l.takeWhile (· ≠ a)).length + 1) :
    a ∉ l.dropLast := by
  intro hmem
  have htake : l.dropLast <+: l.takeWhile (· ≠ a) := by
    apply List.prefix_of_prefix_length_le (List.dropLast_prefix l) (List.takeWhile_prefix _)
    rw [List.length_dropLast]
    omega
  have hread := List.mem_takeWhile_imp (htake.subset hmem)
  simp at hread

end Terminator
