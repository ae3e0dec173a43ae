import Mathlib.Data.List.Basic
import Mathlib.Algebra.Order.Group.Int

/-!
# Writing lines into a bounded buffer

A writer appends lines to a buffer of fixed capacity. A line that fits is
appended whole; a line that does not fit fails and leaves a proper part of
itself, never passing the capacity. All lines of a sequence succeed exactly
when the capacity covers the sum of their lengths.
-/

namespace BoundedBuffer

variable {α : Type*} (cut : List α → ℕ → ℕ) (cap : ℤ)

/-- Append one line. `cut line room` is how much of a line that does not fit
is written before the failure is noticed. The flag says whether it was whole. -/
def put (buf line : List α) : List α × Bool :=
  let room := (cap - buf.length).toNat
  if (buf.length + line.length : ℤ) ≤ cap then (buf ++ line, true)
  else (buf ++ line.take (min (cut line room) room), false)

/-- Append lines one after another, with the flag of each. -/
def putAll (buf : List α) : List (List α) → List α × List Bool
  | [] => (buf, [])
  | line :: lines =>
      let first := put cut cap buf line
      let rest := putAll first.1 lines
      (rest.1, first.2 :: rest.2)

variable {cut cap}

/-- A line that fits is appended whole. -/
theorem put_of_le {buf line : List α} (h : (buf.length + line.length : ℤ) ≤ cap) :
    put cut cap buf line = (buf ++ line, true) := by
  simp [put, h]

/-- A line succeeds exactly when it fits. -/
theorem put_ok_iff {buf line : List α} :
    (put cut cap buf line).2 = true ↔ (buf.length + line.length : ℤ) ≤ cap := by
  unfold put
  split_ifs with h <;> simp [h]

/-- There is one flag for each line. -/
theorem length_putAll_flags (buf : List α) (lines : List (List α)) :
    (putAll cut cap buf lines).2.length = lines.length := by
  induction lines generalizing buf with
  | nil => rfl
  | cons line lines ih => simp [putAll, ih]

/-- Lines that fit together are appended whole, one after another. -/
theorem putAll_of_le {buf : List α} {lines : List (List α)}
    (h : (buf.length + lines.flatten.length : ℤ) ≤ cap) :
    putAll cut cap buf lines = (buf ++ lines.flatten, lines.map fun _ => true) := by
  induction lines generalizing buf with
  | nil => simp [putAll]
  | cons line lines ih =>
    simp only [List.flatten_cons, List.length_append] at h
    have hfirst : put cut cap buf line = (buf ++ line, true) := put_of_le (by omega)
    have hrest : putAll cut cap (buf ++ line) lines =
        (buf ++ line ++ lines.flatten, lines.map fun _ => true) :=
      ih (by simp only [List.length_append]; omega)
    simp [putAll, hfirst, hrest]

/-- **All lines succeed exactly when the capacity covers their total length.** -/
theorem putAll_ok_iff {buf : List α} {lines : List (List α)} (hne : lines ≠ []) :
    (∀ ok ∈ (putAll cut cap buf lines).2, ok = true) ↔
      (buf.length + lines.flatten.length : ℤ) ≤ cap := by
  constructor
  · intro hall
    induction lines generalizing buf with
    | nil => exact absurd rfl hne
    | cons line lines ih =>
      simp only [putAll, List.forall_mem_cons] at hall
      have hfit := put_ok_iff.mp hall.1
      have hall' := hall.2
      rw [put_of_le hfit] at hall'
      cases lines with
      | nil => simpa using hfit
      | cons next lines =>
        have hrest := ih (List.cons_ne_nil next lines) hall'
        simp only [List.flatten_cons, List.length_append] at hrest ⊢
        omega
  · intro h ok hok
    rw [putAll_of_le h] at hok
    obtain ⟨_, _, rfl⟩ := List.mem_map.mp hok
    rfl

/-- A writer that fills the buffer before it gives up on a line leaves the beginning of all
the lines. -/
theorem putAll_of_fills {buf : List α} {lines : List (List α)} (hbuf : (buf.length : ℤ) ≤ cap) :
    (putAll (fun _ room => room) cap buf lines).1 = (buf ++ lines.flatten).take cap.toNat := by
  induction lines generalizing buf with
  | nil =>
    rw [putAll, List.flatten_nil, List.append_nil, List.take_of_length_le (by omega)]
  | cons line lines ih =>
    by_cases hfit : (buf.length + line.length : ℤ) ≤ cap
    · have hfirst : put (fun _ room => room) cap buf line = (buf ++ line, true) := put_of_le hfit
      rw [putAll, hfirst, ih (by simpa using hfit), List.flatten_cons, List.append_assoc]
    · have hroom : cap.toNat - buf.length ≤ line.length := by omega
      have hsub : (cap - buf.length).toNat = cap.toNat - buf.length := by omega
      have hfirst : (put (fun _ room => room) cap buf line).1 =
          buf ++ line.take (cap.toNat - buf.length) := by
        simp [put, hfit, hsub]
      have hfull : (buf ++ line.take (cap.toNat - buf.length)).length = cap.toNat := by
        rw [List.length_append, List.length_take, Nat.min_eq_left hroom]
        omega
      rw [putAll, hfirst, ih (by omega), List.flatten_cons, ← List.append_assoc,
        List.take_append_of_le_length hfull.ge, List.take_of_length_le hfull.le,
        List.take_append_of_le_length (by rw [List.length_append]; omega), List.take_append,
        List.take_of_length_le (by omega : buf.length ≤ cap.toNat)]

/-- What each line leaves in the buffer. -/
def parts (cut : List α → ℕ → ℕ) (cap : ℤ) (buf : List α) : List (List α) → List (List α)
  | [] => []
  | line :: lines =>
      let first := put cut cap buf line
      first.1.drop buf.length :: parts cut cap first.1 lines

/-- What a line may leave when `room` elements are free at the end: all of it, or a proper
prefix if it is longer than this room. -/
def Leaves (room : ℤ) (line : List α × Bool) (part : List α) : Prop :=
  if line.2 then part = line.1
  else part <+: line.1 ∧ part.length < line.1.length ∧ room < line.1.length

/-- A line only adds to the buffer. -/
theorem put_append (buf line : List α) :
    (put cut cap buf line).1 = buf ++ (put cut cap buf line).1.drop buf.length := by
  unfold put
  dsimp only
  split_ifs <;> simp

/-- What one line leaves, as seen from the room that is free behind it. -/
theorem leaves_put {buf line : List α} (hne : line ≠ []) {room : ℤ}
    (hroom : room ≤ cap - (put cut cap buf line).1.length) :
    Leaves room (line, (put cut cap buf line).2)
      ((put cut cap buf line).1.drop buf.length) := by
  have hpos := List.length_pos_iff.mpr hne
  unfold put at hroom ⊢
  dsimp only at hroom ⊢
  split_ifs at hroom ⊢ with hfits
  · simp [Leaves]
  · simp only [List.length_append, List.length_take] at hroom
    simp only [Leaves, List.drop_left, List.length_take, Bool.false_eq_true, if_false]
    refine ⟨List.take_prefix _ _, ?_, ?_⟩
    · omega
    · omega

/-- The buffer holds what the lines have left, one after the other. -/
theorem putAll_eq_parts (buf : List α) (lines : List (List α)) :
    (putAll cut cap buf lines).1 = buf ++ (parts cut cap buf lines).flatten := by
  induction lines generalizing buf with
  | nil => simp [putAll, parts]
  | cons line lines ih =>
    rw [putAll, parts, List.flatten_cons, ← List.append_assoc, ← put_append]
    exact ih _

/-- **What is left of lines that may fail.** Every line that succeeds is there whole, every
other one as a proper prefix, and whatever failed is longer than the room that is free
behind the last line. -/
theorem forall_leaves (buf : List α) {lines : List (List α)} (hne : ∀ line ∈ lines, line ≠ []) :
    List.Forall₂ (Leaves (cap - (putAll cut cap buf lines).1.length))
      (lines.zip (putAll cut cap buf lines).2) (parts cut cap buf lines) := by
  induction lines generalizing buf with
  | nil => exact .nil
  | cons line lines ih =>
    rw [List.forall_mem_cons] at hne
    have hrest := ih (put cut cap buf line).1 hne.2
    have hgrows : (put cut cap buf line).1.length ≤
        (putAll cut cap (put cut cap buf line).1 lines).1.length := by
      rw [putAll_eq_parts, List.length_append]
      omega
    exact .cons (leaves_put hne.1 (by simp only [putAll]; omega)) hrest

end BoundedBuffer
