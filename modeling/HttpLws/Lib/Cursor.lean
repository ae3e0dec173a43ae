import HttpLws.Lib.BoundedBuffer

/-!
# A position that only moves forward

A caller passes a position and a limit to one call after another. Each call may move
the position forward, never past the limit, and reports a success or a failure that the
caller need not look at; calls may fail in any pattern. Every position on the way lies
between the first one and the limit. Appending lines to a bounded buffer is an instance.
-/

/-- Calls that move a position. The number of a call lets equal calls behave
differently. -/
structure Mover (κ : Type*) where
  /-- The position after the `n`-th call, and whether the call reports success. -/
  move (n : ℕ) (call : κ) (position limit : ℤ) : ℤ × Bool
  /-- A call moves the position forward only. -/
  forward : ∀ n call position limit, position ≤ limit →
    position ≤ (move n call position limit).1
  /-- A call does not move the position past the limit. -/
  bounded : ∀ n call position limit, position ≤ limit →
    (move n call position limit).1 ≤ limit

/-- A position that is passed to calls. -/
structure Cursor (κ : Type*) where
  /-- The position. -/
  position : ℤ
  /-- All positions so far, from the first to the present one. -/
  visited : List ℤ
  /-- The calls so far, with what each of them reported. -/
  results : List (κ × Bool)

namespace Cursor

variable {κ : Type*} (w : Mover κ) {start limit : ℤ}

/-- A cursor before the first call. -/
def init (start : ℤ) : Cursor κ := ⟨start, [start], []⟩

/-- One call; what it reports is only recorded. -/
def add (limit : ℤ) (c : Cursor κ) (call : κ) : Cursor κ :=
  let moved := w.move c.results.length call c.position limit
  ⟨moved.1, c.visited ++ [moved.1], c.results ++ [(call, moved.2)]⟩

/-- The cursor has gone forward from `start` and has not passed `limit`. -/
structure Inside (start limit : ℤ) (c : Cursor κ) : Prop where
  /-- The first position is `start`. -/
  started : c.visited.head? = some start
  /-- The present position is one of those visited. -/
  reached : c.position ∈ c.visited
  /-- The visited positions lie between the first and the present one. -/
  passed : ∀ p ∈ c.visited, start ≤ p ∧ p ≤ c.position
  /-- The present position does not exceed the limit. -/
  within : c.position ≤ limit

/-- A cursor that starts below its limit is inside. -/
theorem inside_init (h : start ≤ limit) : Inside start limit (init start : Cursor κ) where
  started := rfl
  reached := List.mem_singleton.mpr rfl
  passed := by
    intro p hp
    obtain rfl := List.mem_singleton.mp hp
    exact ⟨le_rfl, le_rfl⟩
  within := h

variable {w}

/-- **Step rule.** A call keeps the cursor inside, whether it fails or not. -/
theorem Inside.add {c : Cursor κ} (h : Inside start limit c) (call : κ) :
    Inside start limit (c.add w limit call) := by
  have hforward := w.forward c.results.length call c.position limit h.within
  have hbounded := w.bounded c.results.length call c.position limit h.within
  have hstart := (h.passed c.position h.reached).1
  refine ⟨?_, List.mem_append_right _ (List.mem_singleton.mpr rfl), ?_, hbounded⟩
  · rw [Cursor.add, List.head?_append, h.started]
    rfl
  · intro p hp
    rcases List.mem_append.mp hp with hearlier | hnew
    · have hpassed := h.passed p hearlier
      exact ⟨hpassed.1, hpassed.2.trans hforward⟩
    · obtain rfl := List.mem_singleton.mp hnew
      exact ⟨hstart.trans hforward, le_rfl⟩

/-- **Run rule.** A run of calls keeps the cursor inside. -/
theorem Inside.foldl_add (calls : List κ) {c : Cursor κ} (h : Inside start limit c) :
    Inside start limit (calls.foldl (Cursor.add w limit) c) := by
  induction calls generalizing c with
  | nil => exact h
  | cons call calls ih =>
    rw [List.foldl_cons]
    exact ih (h.add call)

/-- Every position that an inside cursor has visited lies in the interval. -/
theorem Inside.visited_mem {c : Cursor κ} (h : Inside start limit c) {p : ℤ}
    (hp : p ∈ c.visited) : start ≤ p ∧ p ≤ limit := by
  have hpassed := h.passed p hp
  exact ⟨hpassed.1, hpassed.2.trans h.within⟩

/-- An inside cursor stands in the interval. -/
theorem Inside.position_mem {c : Cursor κ} (h : Inside start limit c) :
    start ≤ c.position ∧ c.position ≤ limit :=
  h.visited_mem h.reached

end Cursor

namespace BoundedBuffer

variable {α κ : Type*} (cut : List α → ℕ → ℕ) (line : κ → List α)

/-- Calls that append a line each to a bounded buffer, seen at the buffer's end. -/
def mover : Mover κ where
  move _ call position limit :=
    let room := (limit - position).toNat
    if position + (line call).length ≤ limit then (position + (line call).length, true)
    else (position + (min (min (cut (line call) room) room) (line call).length : ℕ), false)
  forward _ call position limit h := by
    dsimp only
    split_ifs
    · exact Int.le_add_of_nonneg_right (Int.natCast_nonneg _)
    · exact Int.le_add_of_nonneg_right (Int.natCast_nonneg _)
  bounded _ call position limit h := by
    dsimp only
    split_ifs with hfits
    · exact hfits
    · omega

/-- Appending a line moves the position by what was appended. -/
theorem mover_move (n : ℕ) (call : κ) (start limit : ℤ) (buf : List α) :
    (mover cut line).move n call (start + buf.length) limit =
      (start + (put cut (limit - start) buf (line call)).1.length,
        (put cut (limit - start) buf (line call)).2) := by
  have hroom : limit - (start + buf.length) = limit - start - buf.length := by omega
  by_cases hfits : (buf.length + (line call).length : ℤ) ≤ limit - start
  · have hmove : (mover cut line).move n call (start + buf.length) limit =
        (start + buf.length + (line call).length, true) := if_pos (by omega)
    rw [put_of_le hfits, hmove, List.length_append]
    congr 1
    omega
  · have hmove : (mover cut line).move n call (start + buf.length) limit =
        (start + buf.length + (min (min (cut (line call) (limit - (start + buf.length)).toNat)
          (limit - (start + buf.length)).toNat) (line call).length : ℕ), false) :=
      if_neg (by omega)
    rw [put, if_neg hfits, hmove, hroom, List.length_append, List.length_take]
    congr 1
    omega

/-- A run of lines moves a cursor along the end of the buffer, with the same flags. -/
theorem foldl_mover (start limit : ℤ) (calls : List κ) (c : Cursor κ) (buf : List α)
    (hend : c.position = start + buf.length) :
    (calls.foldl (Cursor.add (mover cut line) limit) c).position =
        start + (putAll cut (limit - start) buf (calls.map line)).1.length ∧
      (calls.foldl (Cursor.add (mover cut line) limit) c).results =
        c.results ++ calls.zip (putAll cut (limit - start) buf (calls.map line)).2 := by
  induction calls generalizing c buf with
  | nil => simp [putAll, hend]
  | cons call calls ih =>
    have hmove := mover_move cut line c.results.length call start limit buf
    rw [← hend] at hmove
    obtain ⟨hposition, hresults⟩ := ih (c.add (mover cut line) limit call)
      (put cut (limit - start) buf (line call)).1 (by rw [Cursor.add, hmove])
    refine ⟨hposition, ?_⟩
    rw [List.foldl_cons, hresults]
    simp [Cursor.add, hmove, putAll]

end BoundedBuffer
