import HttpLws.Lib.FieldLines

/-!
# Messages on a stream

A recipient takes messages from a stream of bytes, one after another: a start line,
field lines up to the blank line, and as many bytes of body as a rule says that looks
at the head. Bytes delimit a message when they are taken as this message whatever
follows them. A stream made of such pieces is read as their messages.
-/

namespace MessageStream

open HeaderBlock

/-- A message taken from a stream. -/
structure Message where
  /-- The start line. -/
  start : List UInt8
  /-- The header fields in their order. -/
  fields : List Field
  /-- The body. -/
  body : List UInt8
  deriving DecidableEq

/-- The bytes before the first line end, and those behind it. -/
def takeLine : List UInt8 → Option (List UInt8 × List UInt8)
  | [] => none
  | [_] => none
  | b :: c :: bs =>
      if b = 13 ∧ c = 10 then some ([], bs)
      else (takeLine (c :: bs)).map fun p => (b :: p.1, p.2)

/-- At most `n` lines: the fields before the blank line, and the bytes behind it. -/
def takeFields : ℕ → List UInt8 → Option (List Field × List UInt8)
  | 0, _ => none
  | n + 1, bytes =>
      match takeLine bytes with
      | none => none
      | some ([], rest) => some ([], rest)
      | some (line, rest) =>
          match parseField line, takeFields n rest with
          | some f, some (fs, after) => some (f :: fs, after)
          | _, _ => none

variable (bodyLength : List UInt8 → List Field → Option ℕ)

/-- The first message of a stream, and the bytes behind it. -/
def takeMessage (bytes : List UInt8) : Option (Message × List UInt8) :=
  match takeLine bytes with
  | none => none
  | some (start, rest) =>
      match takeFields bytes.length rest with
      | none => none
      | some (fields, rest) =>
          match bodyLength start fields with
          | none => none
          | some n =>
              if n ≤ rest.length then some (⟨start, fields, rest.take n⟩, rest.drop n) else none

/-- At most `n` messages, when the stream ends behind the last of them. -/
def readUpTo : ℕ → List UInt8 → Option (List Message)
  | _, [] => some []
  | 0, _ :: _ => none
  | n + 1, b :: bs =>
      match takeMessage bodyLength (b :: bs) with
      | none => none
      | some (m, rest) => (readUpTo n rest).map (m :: ·)

/-- All messages of a stream that ends behind a message. -/
def readAll (bytes : List UInt8) : Option (List Message) := readUpTo bodyLength bytes.length bytes

/-- The first `n` messages of a stream, and the bytes behind them. -/
def takeMessages : ℕ → List UInt8 → Option (List Message × List UInt8)
  | 0, bytes => some ([], bytes)
  | n + 1, bytes =>
      (takeMessage bodyLength bytes).bind fun p =>
        (takeMessages n p.2).map fun q => (p.1 :: q.1, q.2)

/-- The bytes are taken as the message, whatever follows them. -/
def Delimits (bytes : List UInt8) (m : Message) : Prop :=
  ∀ rest, takeMessage bodyLength (bytes ++ rest) = some (m, rest)

variable {bodyLength}

/-- Pieces that are not empty are no more than the elements in them. -/
theorem length_le_length_flatten {α : Type*} {pieces : List (List α)}
    (h : ∀ piece ∈ pieces, piece ≠ []) : pieces.length ≤ pieces.flatten.length := by
  rw [List.length_flatten]
  conv_lhs => rw [← List.length_map List.length]
  apply List.length_le_sum_of_one_le
  intro i hi
  obtain ⟨piece, hpiece, rfl⟩ := List.mem_map.mp hi
  exact List.length_pos_iff.mpr (h piece hpiece)

/-- A line without a line end in it is taken up to its own. -/
theorem takeLine_closed {line : List UInt8} (hline : lines line = [line]) (rest : List UInt8) :
    takeLine (closed line ++ rest) = some (line, rest) := by
  unfold closed
  induction line using lines.induct with
  | case1 => simp [takeLine]
  | case2 b => simp [takeLine]
  | case3 b c bs hp ih =>
    rw [lines, if_pos hp, List.cons.injEq] at hline
    exact absurd hline.1.symm (List.cons_ne_nil _ _)
  | case4 b c bs hp hnil ih => exact absurd hnil (lines_ne_nil _)
  | case5 b c bs hp l ls hl ih =>
    rw [lines, if_neg hp, hl] at hline
    simp only [List.cons.injEq, true_and] at hline
    obtain ⟨rfl, rfl⟩ := hline
    have hrest := ih hl
    simp only [List.cons_append] at hrest ⊢
    rw [takeLine, if_neg hp, hrest]
    rfl

/-- Field lines are taken one for each content, and the blank line ends them. -/
theorem takeFields_closed {contents : List (List UInt8)} {fs : List Field}
    (hfields : List.Forall₂ (fun c f => lines c = [c] ∧ parseField c = some f) contents fs)
    (rest : List UInt8) {n : ℕ} (hn : contents.length < n) :
    takeFields n ((contents.map closed).flatten ++ ([13, 10] ++ rest)) = some (fs, rest) := by
  induction hfields generalizing n with
  | nil =>
    obtain ⟨n, rfl⟩ := Nat.exists_eq_add_one.mpr hn
    simp [takeFields, takeLine]
  | @cons c f contents fs hfirst _ ih =>
    obtain ⟨n, rfl⟩ := Nat.exists_eq_add_one.mpr (Nat.zero_lt_of_lt hn)
    have hrest := ih (Nat.lt_of_succ_lt_succ hn)
    have hne : c ≠ [] := by
      rintro rfl
      exact absurd hfirst.2 (by simp [parseField_nil])
    obtain ⟨b, bs, rfl⟩ := List.exists_cons_of_ne_nil hne
    rw [List.map_cons, List.flatten_cons, List.append_assoc, takeFields,
      takeLine_closed hfirst.1]
    simp only [hfirst.2, hrest]

/-- **Printed messages delimit themselves.** A printed head whose contents are field
lines, followed by a body of the length that the rule reads from the head, is taken
as that message whatever follows. -/
theorem delimits_print {start body : List UInt8} {contents : List (List UInt8)}
    {fs : List Field} (hstart : lines start = [start])
    (hfields : List.Forall₂ (fun c f => lines c = [c] ∧ parseField c = some f) contents fs)
    (hlength : bodyLength start fs = some body.length) :
    Delimits bodyLength (print start contents ++ body) ⟨start, fs, body⟩ := by
  intro rest
  have hsplit : print start contents ++ body ++ rest =
      closed start ++ ((contents.map closed).flatten ++ ([13, 10] ++ (body ++ rest))) := by
    simp only [print, List.append_assoc]
  have hcount : (contents.map closed).length ≤ (contents.map closed).flatten.length := by
    apply length_le_length_flatten
    intro piece hpiece
    obtain ⟨c, _, rfl⟩ := List.mem_map.mp hpiece
    simp [closed]
  rw [List.length_map] at hcount
  have henough : contents.length < (print start contents ++ body ++ rest).length := by
    rw [hsplit]
    simp only [List.length_append, List.length_cons]
    omega
  rw [takeMessage, hsplit, takeLine_closed hstart]
  rw [hsplit] at henough
  simp only [takeFields_closed hfields (body ++ rest) henough, hlength]
  simp

/-- There is no message in an empty stream. -/
theorem Delimits.ne_nil {bytes : List UInt8} {m : Message}
    (h : Delimits bodyLength bytes m) : bytes ≠ [] := by
  rintro rfl
  have hnone := h []
  simp [takeMessage, takeLine] at hnone

/-- Pieces that delimit messages are taken as these, whatever follows them. -/
theorem takeMessages_flatten {pieces : List (List UInt8)} {ms : List Message}
    (h : List.Forall₂ (Delimits bodyLength) pieces ms) (rest : List UInt8) :
    takeMessages bodyLength ms.length (pieces.flatten ++ rest) = some (ms, rest) := by
  induction h with
  | nil => rfl
  | cons hfirst _ ih =>
    rw [List.flatten_cons, List.append_assoc, List.length_cons, takeMessages, hfirst,
      Option.bind_some, ih, Option.map_some]

/-- A stream of pieces is read piece by piece. -/
theorem readUpTo_flatten {pieces : List (List UInt8)} {ms : List Message}
    (h : List.Forall₂ (Delimits bodyLength) pieces ms) {n : ℕ} (hn : pieces.length ≤ n) :
    readUpTo bodyLength n pieces.flatten = some ms := by
  induction h generalizing n with
  | nil => cases n <;> rfl
  | @cons piece m pieces ms hfirst _ ih =>
    obtain ⟨n, rfl⟩ := Nat.exists_eq_add_one.mpr (Nat.zero_lt_of_lt hn)
    have htake := hfirst pieces.flatten
    obtain ⟨b, bs, rfl⟩ := List.exists_cons_of_ne_nil hfirst.ne_nil
    rw [List.flatten_cons]
    rw [List.cons_append] at htake ⊢
    rw [readUpTo]
    simp only [htake, ih (Nat.le_of_succ_le_succ hn), Option.map_some]

/-- **A stream of messages.** Pieces that delimit messages, one after another, are read
as these messages and nothing else. -/
theorem readAll_flatten {pieces : List (List UInt8)} {ms : List Message}
    (h : List.Forall₂ (Delimits bodyLength) pieces ms) :
    readAll bodyLength pieces.flatten = some ms := by
  apply readUpTo_flatten h
  apply length_le_length_flatten
  intro piece hpiece
  obtain ⟨i, hi, rfl⟩ := List.mem_iff_getElem.mp hpiece
  exact ((List.forall₂_iff_get.mp h).2 i hi (h.length_eq ▸ hi)).ne_nil

/-- What stands before a line that was taken. -/
theorem takeLine_eq_some {bytes line rest : List UInt8} (h : takeLine bytes = some (line, rest)) :
    bytes = closed line ++ rest ∧ lines line = [line] := by
  induction bytes using takeLine.induct generalizing line with
  | case1 => simp [takeLine] at h
  | case2 b => simp [takeLine] at h
  | case3 b c bs hp =>
    simp only [takeLine, if_pos hp, Option.some.injEq, Prod.mk.injEq] at h
    obtain ⟨rfl, rfl⟩ := h
    simp [closed, hp.1, hp.2, lines]
  | case4 b c bs hp ih =>
    rw [takeLine, if_neg hp] at h
    obtain ⟨⟨l, r⟩, hl, heq⟩ := Option.map_eq_some_iff.mp h
    simp only [Prod.mk.injEq] at heq
    obtain ⟨rfl, rfl⟩ := heq
    obtain ⟨hbytes, hline⟩ := ih hl
    refine ⟨by rw [hbytes]; rfl, ?_⟩
    cases l with
    | nil => rfl
    | cons x xs =>
      have hx : x = c := by
        have := congrArg List.head? hbytes
        simpa [closed] using this.symm
      rw [lines, if_neg (by rw [hx]; exact hp), hline]

/-- What stands before the fields that were taken: one line for each, and a blank line. -/
theorem takeFields_eq_some {n : ℕ} {bytes rest : List UInt8} {fs : List Field}
    (h : takeFields n bytes = some (fs, rest)) :
    ∃ ls : List (List UInt8), ls.length = fs.length ∧ (∀ l ∈ ls, lines l = [l]) ∧
      bytes = (ls.map closed).flatten ++ ([13, 10] ++ rest) := by
  induction n generalizing bytes fs with
  | zero => simp [takeFields] at h
  | succ n ih =>
    rw [takeFields] at h
    split at h
    · cases h
    · next after hline =>
      simp only [Option.some.injEq, Prod.mk.injEq] at h
      obtain ⟨rfl, rfl⟩ := h
      obtain ⟨hbytes, -⟩ := takeLine_eq_some hline
      exact ⟨[], rfl, by simp, by simpa [closed] using hbytes⟩
    · next line after _ hline =>
      split at h
      · next f fs' after' _ hrest =>
        simp only [Option.some.injEq, Prod.mk.injEq] at h
        obtain ⟨rfl, rfl⟩ := h
        obtain ⟨ls, hlen, hsingle, hafter⟩ := ih hrest
        obtain ⟨hbytes, hone⟩ := takeLine_eq_some hline
        refine ⟨line :: ls, by simp [hlen], List.forall_mem_cons.mpr ⟨hone, hsingle⟩, ?_⟩
        rw [hbytes, hafter]
        simp
      · cases h

/-- **What a message was taken from**: a printed head with one line for each field, of
which the rule reads the length of the body, and the body. -/
theorem takeMessage_eq_some {bytes rest : List UInt8} {m : Message}
    (h : takeMessage bodyLength bytes = some (m, rest)) :
    ∃ ls : List (List UInt8), ls.length = m.fields.length ∧ (∀ l ∈ m.start :: ls, lines l = [l]) ∧
      bodyLength m.start m.fields = some m.body.length ∧
      bytes = print m.start ls ++ m.body ++ rest := by
  rw [takeMessage] at h
  split at h
  · cases h
  · next start after hline =>
    split at h
    · cases h
    · next fields after' hfields =>
      split at h
      · cases h
      · next n hn =>
        split_ifs at h with hle
        simp only [Option.some.injEq, Prod.mk.injEq] at h
        obtain ⟨rfl, rfl⟩ := h
        obtain ⟨hbytes, hone⟩ := takeLine_eq_some hline
        obtain ⟨ls, hlen, hsingle, hafter⟩ := takeFields_eq_some hfields
        refine ⟨ls, hlen, List.forall_mem_cons.mpr ⟨hone, hsingle⟩, ?_, ?_⟩
        · rw [hn, List.length_take, Nat.min_eq_left hle]
        · rw [hbytes, hafter, print]
          simp [List.take_append_drop]

end MessageStream
