import HttpLws.Lib.HeaderBlock

/-!
# Field lines by name

A recipient looks up a field by what stands before the first colon of its line,
without regard to case. This file gives the names and the values of the lines in
some bytes of a block. It asks less of a line than the strict reader does: only
that it has a colon.
-/

namespace HeaderBlock

/-- The lower case of a byte; only ASCII letters have one. -/
def lowerByte (b : UInt8) : UInt8 := if 65 ≤ b ∧ b ≤ 90 then b + 32 else b

/-- The field lines in some bytes of a block. -/
def fieldLines (bytes : List UInt8) : List (List UInt8) := (lines bytes).filter fun l => 58 ∈ l

/-- The field lines in some bytes of a block that are whole: a line end closes them. -/
def wholeFieldLines (bytes : List UInt8) : List (List UInt8) :=
  (lines bytes).dropLast.filter fun l => 58 ∈ l

/-- The name on a line, in lower case. -/
def lineName (line : List UInt8) : List UInt8 := (line.takeWhile (· ≠ 58)).map lowerByte

/-- The value on a line, without the white space around it. -/
def lineValue (line : List UInt8) : List UInt8 := trim ((line.dropWhile (· ≠ 58)).drop 1)

/-- The number that decimal digits stand for. -/
def lengthValue (value : List UInt8) : Option ℕ :=
  if value ≠ [] ∧ value.all (fun b => 48 ≤ b && b ≤ 57) = true then
    some (Nat.ofDigitChars 10 (value.map fun b => Char.ofNat b.toNat) 0)
  else none

/-- The line end that closes a content adds no field line. -/
theorem fieldLines_closed (content : List UInt8) :
    fieldLines (closed content) = fieldLines content := by
  have h := lines_closed_append content []
  rw [List.append_nil] at h
  rw [fieldLines, h, List.filter_append]
  simp [fieldLines, lines]

/-- A content that a line end closes has whole lines, whatever follows. -/
theorem wholeFieldLines_closed_append (content rest : List UInt8) :
    wholeFieldLines (closed content ++ rest) = fieldLines content ++ wholeFieldLines rest := by
  rw [wholeFieldLines, lines_closed_append, List.dropLast_append_of_ne_nil (lines_ne_nil rest),
    List.filter_append]
  rfl

/-- All field lines of a printed block are whole. -/
theorem wholeFieldLines_print (start : List UInt8) (contents : List (List UInt8)) :
    wholeFieldLines (print start contents) = fieldLines start ++ contents.flatMap fieldLines := by
  have hcontents : ∀ cs : List (List UInt8),
      wholeFieldLines ((cs.map closed).flatten ++ [13, 10]) = cs.flatMap fieldLines := by
    intro cs
    induction cs with
    | nil => simp [wholeFieldLines, lines]
    | cons c cs ih =>
      rw [List.map_cons, List.flatten_cons, List.append_assoc, wholeFieldLines_closed_append, ih,
        List.flatMap_cons]
  rw [print, List.append_assoc, wholeFieldLines_closed_append, hcontents]

/-- A printed field that is one line is its only field line. -/
theorem fieldLines_fieldContent {f : Field} (hline : lines (fieldContent f) = [fieldContent f]) :
    fieldLines (fieldContent f) = [fieldContent f] := by
  have hcolon : 58 ∈ fieldContent f := by simp [fieldContent]
  rw [fieldLines, hline, List.filter_cons_of_pos (by simpa using hcolon), List.filter_nil]

/-- Proper printed fields are one line each. -/
theorem flatMap_fieldLines {fs : List Field}
    (hvalid : ∀ f ∈ fs, IsToken f.name ∧ IsFieldValue f.value) :
    (fs.map fieldContent).flatMap fieldLines = fs.map fieldContent := by
  have hline : ∀ f ∈ fs, fieldLines (fieldContent f) = [fieldContent f] := fun f hf =>
    fieldLines_fieldContent (parseField_fieldContent (hvalid f hf).1 (hvalid f hf).2).1
  rw [List.flatMap_map, List.flatMap_congr hline]
  exact List.flatMap_pure_eq_map _ _

/-- The name on the line of a printed field. -/
theorem lineName_fieldContent {f : Field} (hname : IsToken f.name) :
    lineName (fieldContent f) = f.name.map lowerByte := by
  rw [lineName, fieldContent, hname.takeWhile]

/-- The value on the line of a printed field. -/
theorem lineValue_fieldContent {f : Field} (hname : IsToken f.name)
    (hvalue : IsFieldValue f.value) :
    lineValue (fieldContent f) = f.value := by
  have hdrop : (f.name ++ 58 :: 32 :: f.value).dropWhile (· ≠ 58) = 58 :: 32 :: f.value := by
    rw [List.dropWhile_append_of_pos hname.ne_colon]
    simp
  rw [lineValue, fieldContent, hdrop, List.drop_succ_cons, List.drop_zero, trim_space,
    trim_of_isFieldValue hvalue]

/-- The digits of a number stand for it. -/
theorem lengthValue_toDigits (n : ℕ) :
    lengthValue ((Nat.toDigits 10 n).map fun c => UInt8.ofNat c.toNat) = some n := by
  have hdigit : ∀ c ∈ Nat.toDigits 10 n, 48 ≤ c.toNat ∧ c.toNat ≤ 57 := by
    intro c hc
    have hd := Nat.isDigit_of_mem_toDigits (by decide) (by decide) hc
    simp only [Char.isDigit, Bool.and_eq_true, decide_eq_true_eq] at hd
    exact hd
  have hbyte : ∀ c ∈ Nat.toDigits 10 n, (UInt8.ofNat c.toNat).toNat = c.toNat := by
    intro c hc
    have := hdigit c hc
    rw [UInt8.toNat_ofNat']
    omega
  have hback : ((Nat.toDigits 10 n).map fun c => UInt8.ofNat c.toNat).map
      (fun b => Char.ofNat b.toNat) = Nat.toDigits 10 n := by
    rw [List.map_map]
    conv_rhs => rw [← List.map_id (Nat.toDigits 10 n)]
    refine List.map_congr_left fun c hc => ?_
    rw [Function.comp_apply, hbyte c hc, Char.ofNat_toNat, id]
  have hdigits : ((Nat.toDigits 10 n).map fun c => UInt8.ofNat c.toNat) ≠ [] ∧
      ((Nat.toDigits 10 n).map fun c => UInt8.ofNat c.toNat).all
        (fun b => 48 ≤ b && b ≤ 57) = true := by
    refine ⟨by simp [Nat.toDigits_ne_nil], ?_⟩
    simp only [List.all_map, List.all_eq_true, Function.comp_apply, Bool.and_eq_true,
      decide_eq_true_eq, UInt8.le_iff_toNat_le]
    intro c hc
    rw [hbyte c hc]
    exact hdigit c hc
  rw [lengthValue, if_pos hdigits, hback, Nat.ofDigitChars_ten_toDigits]

end HeaderBlock
