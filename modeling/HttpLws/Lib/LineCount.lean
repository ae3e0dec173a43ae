import HttpLws.Lib.BoundedBuffer
import HttpLws.Lib.HeaderBlock

/-!
# Counting lines

The number of lines in some bytes tells whether a printed block is whole: bytes that are
cut before a line end have fewer lines. Line ends do not arise where pieces meet as long
as no piece begins with LF. An empty line at the end tells it too, where no other line of
the block is empty.
-/

namespace HeaderBlock

/-- Where the second piece does not begin with LF, no line end arises between two pieces. -/
theorem length_lines_append (a : List UInt8) {b : List UInt8} (hb : b.head? ≠ some 10) :
    (lines (a ++ b)).length + 1 = (lines a).length + (lines b).length := by
  induction a using lines.induct with
  | case1 => simp [lines, Nat.add_comm]
  | case2 x =>
    cases b with
    | nil => rfl
    | cons y b =>
      have hp : ¬(x = 13 ∧ y = 10) := fun h => hb (by simp [h.2])
      have hone : (lines [x]).length = 1 := rfl
      rw [List.singleton_append, hone, lines.eq_3, if_neg hp]
      cases hl : lines (y :: b) with
      | nil => exact absurd hl (lines_ne_nil _)
      | cons l ls =>
        simp only [List.length_cons]
        omega
  | case3 x y bs hp ih =>
    simp only [List.cons_append] at ih ⊢
    rw [lines, if_pos hp, lines, if_pos hp, List.length_cons, List.length_cons]
    omega
  | case4 x y bs hp hnil ih => exact absurd hnil (lines_ne_nil _)
  | case5 x y bs hp l ls hl ih =>
    simp only [List.cons_append] at ih ⊢
    rw [lines, if_neg hp, lines, if_neg hp, hl]
    rw [hl] at ih
    cases hl' : lines (y :: (bs ++ b)) with
    | nil => exact absurd hl' (lines_ne_nil _)
    | cons l' ls' =>
      rw [hl'] at ih
      simpa using ih

/-- A line end makes one more line. -/
theorem length_lines_closed (a : List UInt8) :
    (lines (closed a)).length = (lines a).length + 1 := by
  have h := lines_closed_append a []
  rw [List.append_nil] at h
  rw [h, List.length_append]
  rfl

/-- A prefix has no more lines. -/
theorem length_lines_prefix {p q : List UInt8} (h : p <+: q) :
    (lines p).length ≤ (lines q).length := by
  obtain ⟨r, rfl⟩ := h
  have hpos : ∀ bs : List UInt8, 1 ≤ (lines bs).length := fun bs =>
    List.length_pos_iff.mpr (lines_ne_nil bs)
  induction p using lines.induct with
  | case1 => exact hpos _
  | case2 b => exact hpos _
  | case3 b c bs hp ih =>
    simp only [List.cons_append] at ih ⊢
    rw [lines, if_pos hp, lines, if_pos hp, List.length_cons, List.length_cons]
    omega
  | case4 b c bs hp hnil ih => exact absurd hnil (lines_ne_nil _)
  | case5 b c bs hp l ls hl ih =>
    simp only [List.cons_append] at ih ⊢
    rw [lines, if_neg hp, lines, if_neg hp, hl]
    rw [hl] at ih
    cases hl' : lines (c :: (bs ++ r)) with
    | nil => exact absurd hl' (lines_ne_nil _)
    | cons l' ls' =>
      rw [hl'] at ih
      simpa using ih

/-- What is cut before the line end has fewer lines. -/
theorem length_lines_lt_of_cut {content part : List UInt8} (hbegins : part <+: closed content)
    (hcut : part.length < (closed content).length) :
    (lines part).length < (lines (closed content)).length := by
  have hclosed : closed content = (content ++ [13]) ++ [10] := by simp [closed]
  have hlen : part.length ≤ (content ++ [13]).length := by
    rw [hclosed, List.length_append, List.length_singleton] at hcut
    omega
  have hwithin : part <+: content ++ [13] :=
    List.prefix_of_prefix_length_le hbegins ⟨[10], hclosed.symm⟩ hlen
  have hone : (lines (content ++ [13])).length + 1 = (lines content).length + 1 :=
    length_lines_append content (by decide)
  have hle := length_lines_prefix hwithin
  rw [length_lines_closed]
  omega

/-- The bytes end with an empty line. -/
def Ended (bytes : List UInt8) : Prop := ∃ ls, lines bytes = ls ++ [[], []]

/-- A printed block ends with an empty line. -/
theorem ended_print (start : List UInt8) (contents : List (List UInt8)) :
    Ended (print start contents) :=
  ⟨lines start ++ contents.flatMap lines, by rw [lines_print, List.append_assoc]⟩

/-- Bytes that end with a line end are followed by the lines of what follows. -/
theorem lines_append_of_getLast? {bs : List UInt8} (h : (lines bs).getLast? = some [])
    (rest : List UInt8) : lines (bs ++ rest) = (lines bs).dropLast ++ lines rest := by
  induction bs using lines.induct with
  | case1 => rfl
  | case2 b => simp [lines] at h
  | case3 b c bs hp ih =>
    rw [lines, if_pos hp, List.getLast?_cons_of_ne_nil (lines_ne_nil bs)] at h
    rw [List.cons_append, List.cons_append, lines, if_pos hp, ih h, lines, if_pos hp,
      List.dropLast_cons_of_ne_nil (lines_ne_nil bs), List.cons_append]
  | case4 b c bs hp hnil ih => exact absurd hnil (lines_ne_nil _)
  | case5 b c bs hp l ls hl ih =>
    have hsplit : lines (b :: c :: bs) = (b :: l) :: ls := by rw [lines, if_neg hp, hl]
    rw [hsplit] at h ⊢
    cases ls with
    | nil => simp at h
    | cons l' ls =>
      have hrest := ih (by rw [hl]; simpa using h)
      rw [hl, List.cons_append] at hrest
      rw [List.cons_append, List.cons_append, lines, if_neg hp, hrest]
      rfl

/-- **A cut block does not end.** A printed block whose lines are not empty has an empty
line at its very end only. -/
theorem eq_print_of_ended {start : List UInt8} {contents : List (List UInt8)}
    (hone : ∀ l ∈ start :: contents, lines l = [l] ∧ l ≠ []) {bs : List UInt8}
    (hbegins : bs <+: print start contents) (hended : Ended bs) : bs = print start contents := by
  obtain ⟨rest, hrest⟩ := hbegins
  obtain ⟨ls, hls⟩ := hended
  have hlast : (lines bs).getLast? = some [] := by simp [hls]
  have hflat : contents.flatMap lines = contents := by
    rw [List.flatMap_congr fun l hl => (hone l (List.mem_cons_of_mem _ hl)).1,
      List.flatMap_singleton']
  have hall := lines_append_of_getLast? hlast rest
  rw [hrest, lines_print, (hone start List.mem_cons_self).1, hflat, hls] at hall
  have hsides : (start :: contents) ++ [[], []] = ls ++ ([] :: lines rest) := by
    simpa [List.dropLast_append_of_ne_nil] using hall
  -- Nothing but an empty rest has a single empty line.
  have hdone : lines rest = [[]] → bs = print start contents := by
    intro hempty
    rw [← hrest, ← eq_of_lines_singleton hempty, List.append_nil]
  obtain ⟨mid, -, hend⟩ | ⟨mid, hmid, hend⟩ := List.append_eq_append_iff.mp hsides
  · cases mid with
    | nil => exact hdone (by simpa using hend.symm)
    | cons m mid =>
      have hlen := congrArg List.length hend
      have hpos := List.length_pos_iff.mpr (lines_ne_nil rest)
      simp only [List.length_append, List.length_cons, List.length_nil] at hlen
      omega
  · cases mid with
    | nil => exact hdone (by simpa using hend)
    | cons m mid =>
      have hm : m = [] := (List.cons_eq_cons.mp hend).1.symm
      have hmem : m ∈ start :: contents := by simp [hmid]
      exact absurd hm (hone m hmem).2

/-- Pieces that do not begin with LF are together no bytes that begin with it. -/
theorem head?_flatten_ne {pieces : List (List UInt8)}
    (h : ∀ piece ∈ pieces, piece.head? ≠ some 10) : pieces.flatten.head? ≠ some 10 := by
  induction pieces with
  | nil => simp
  | cons piece pieces ih =>
    rw [List.forall_mem_cons] at h
    cases piece with
    | nil => exact ih h.2
    | cons b bs => exact h.1

/-- What is left of a line that does not begin with LF does not begin with it. -/
theorem leaves_head?_ne {room : ℤ} {line : List UInt8 × Bool} {part : List UInt8}
    (h : BoundedBuffer.Leaves room line part) (hhead : line.1.head? ≠ some 10) :
    part.head? ≠ some 10 := by
  unfold BoundedBuffer.Leaves at h
  split_ifs at h with hflag
  · rw [h]
    exact hhead
  · obtain ⟨⟨rest, hrest⟩, -, -⟩ := h
    cases part with
    | nil => simp
    | cons b bs =>
      rw [← hrest] at hhead
      exact hhead

/-- **Cut lines are missed.** Of closed lines, none of which begins with LF, some are cut.
What is left has as many lines as all of them only if none was cut. -/
theorem eq_true_of_length_lines {room : ℤ} {written : List (List UInt8 × Bool)}
    {parts : List (List UInt8)}
    (hparts : List.Forall₂ (BoundedBuffer.Leaves room) written parts)
    (hclosed : ∀ l ∈ written, (∃ content, l.1 = closed content) ∧ l.1.head? ≠ some 10) :
    (lines parts.flatten).length ≤ (lines (written.map (·.1)).flatten).length ∧
      ((lines parts.flatten).length = (lines (written.map (·.1)).flatten).length →
        ∀ l ∈ written, l.2 = true) := by
  induction hparts with
  | nil => simp
  | @cons l part written parts hfirst hrest ih =>
    rw [List.forall_mem_cons] at hclosed
    obtain ⟨⟨⟨content, hcontent⟩, hhead⟩, hothers⟩ := hclosed
    obtain ⟨hle, heq⟩ := ih hothers
    have hwholes : (written.map (·.1)).flatten.head? ≠ some 10 := by
      apply head?_flatten_ne
      intro piece hpiece
      obtain ⟨k, hk, rfl⟩ := List.mem_map.mp hpiece
      exact (hothers k hk).2
    have hpieces : parts.flatten.head? ≠ some 10 := by
      apply head?_flatten_ne
      intro piece hpiece
      obtain ⟨i, hi, rfl⟩ := List.mem_iff_getElem.mp hpiece
      have hi' : i < written.length := hrest.length_eq ▸ hi
      have hleaves := (List.forall₂_iff_get.mp hrest).2 i hi' hi
      exact leaves_head?_ne hleaves (hothers _ (List.getElem_mem hi')).2
    have hsum := length_lines_append part hpieces
    have hsum' := length_lines_append l.1 hwholes
    rw [List.map_cons, List.flatten_cons, List.flatten_cons, List.forall_mem_cons]
    cases hflag : l.2 with
    | true =>
      have hwhole : part = l.1 := by simpa [BoundedBuffer.Leaves, hflag] using hfirst
      rw [hwhole] at hsum ⊢
      exact ⟨by omega, fun hcount => ⟨rfl, heq (by omega)⟩⟩
    | false =>
      obtain ⟨hbegins, hcut, -⟩ : part <+: l.1 ∧ part.length < l.1.length ∧ room < l.1.length := by
        simpa [BoundedBuffer.Leaves, hflag] using hfirst
      rw [hcontent] at hbegins hcut hsum' ⊢
      have hfewer := length_lines_lt_of_cut hbegins hcut
      exact ⟨by omega, fun hcount => absurd hcount (by omega)⟩

end HeaderBlock
