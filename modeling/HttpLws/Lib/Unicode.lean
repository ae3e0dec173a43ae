import HttpLws.Lib.Terminator
import Mathlib.Data.Nat.Notation

/-!
# UTF-8 and UTF-16 forms of a text

A text is a list of Unicode scalar values. Its UTF-8 form is a list of bytes,
one to four for each character; its UTF-16 form is a list of sixteen-bit units,
one or two for each character. The two lengths agree exactly on ASCII texts.
Decoding UTF-16 accepts every list of units: an unpaired surrogate is replaced.
-/

namespace Unicode

/-- The UTF-8 form of a text. -/
def utf8 (t : List Char) : List UInt8 := t.flatMap String.utf8EncodeChar

/-- The UTF-16 units of one character: itself, or a surrogate pair. -/
def utf16Char (c : Char) : List UInt16 :=
  if c.toNat < 0x10000 then [UInt16.ofNat c.toNat]
  else [UInt16.ofNat (0xD800 + (c.toNat - 0x10000) / 0x400),
    UInt16.ofNat (0xDC00 + (c.toNat - 0x10000) % 0x400)]

/-- The UTF-16 form of a text. -/
def utf16 (t : List Char) : List UInt16 := t.flatMap utf16Char

/-- The first unit of a surrogate pair. -/
def IsHigh (u : UInt16) : Prop := 0xD800 ≤ u.toNat ∧ u.toNat < 0xDC00

/-- The second unit of a surrogate pair. -/
def IsLow (u : UInt16) : Prop := 0xDC00 ≤ u.toNat ∧ u.toNat < 0xE000

instance (u : UInt16) : Decidable (IsHigh u) := inferInstanceAs (Decidable (_ ∧ _))

instance (u : UInt16) : Decidable (IsLow u) := inferInstanceAs (Decidable (_ ∧ _))

/-- A unit outside the surrogate range is a character; a surrogate on its own
is replaced by a question mark. -/
def unitChar (u : UInt16) : Char :=
  if IsHigh u ∨ IsLow u then '?' else Char.ofNat u.toNat

/-- The character of a surrogate pair. -/
def pairChar (u w : UInt16) : Char :=
  Char.ofNat (0x10000 + (u.toNat - 0xD800) * 0x400 + (w.toNat - 0xDC00))

/-- Read UTF-16 units as a text. -/
def decode16 : List UInt16 → List Char
  | [] => []
  | [u] => [unitChar u]
  | u :: w :: s =>
      if IsHigh u ∧ IsLow w then pairChar u w :: decode16 s
      else unitChar u :: decode16 (w :: s)

/-- The characters whose UTF-8 form is a single byte. -/
def IsAscii (c : Char) : Prop := c.toNat < 0x80

instance (c : Char) : Decidable (IsAscii c) := inferInstanceAs (Decidable (_ < _))

@[simp] theorem utf8_nil : utf8 [] = [] := rfl

@[simp] theorem utf8_cons (c : Char) (t : List Char) :
    utf8 (c :: t) = String.utf8EncodeChar c ++ utf8 t := by
  simp [utf8]

@[simp] theorem utf8_append (s t : List Char) : utf8 (s ++ t) = utf8 s ++ utf8 t := by
  simp [utf8]

@[simp] theorem utf16_nil : utf16 [] = [] := rfl

@[simp] theorem utf16_cons (c : Char) (t : List Char) :
    utf16 (c :: t) = utf16Char c ++ utf16 t := by
  simp [utf16]

@[simp] theorem utf16_append (s t : List Char) : utf16 (s ++ t) = utf16 s ++ utf16 t := by
  simp [utf16]

/-- A scalar value lies below the surrogates, or above them and within range. -/
theorem toNat_valid (c : Char) :
    c.toNat < 0xD800 ∨ (0xDFFF < c.toNat ∧ c.toNat < 0x110000) := c.valid

/-- A character of the basic plane is one unit. -/
theorem utf16Char_of_lt {c : Char} (h : c.toNat < 0x10000) :
    utf16Char c = [UInt16.ofNat c.toNat] := by
  simp [utf16Char, h]

/-- An ASCII character is the byte with its number. -/
theorem utf8EncodeChar_ascii {c : Char} (h : IsAscii c) :
    String.utf8EncodeChar c = [UInt8.ofNat c.toNat] := by
  have hle : c.toNat ≤ 127 := Nat.le_of_lt_succ h
  have hsmall : ¬127 < c.toNat := by omega
  simp [String.utf8EncodeChar, hsmall]

/-- Every byte of the UTF-8 form of a character outside ASCII has its top bit set. -/
theorem utf8EncodeChar_high {c : Char} (h : ¬IsAscii c) :
    ∀ b ∈ String.utf8EncodeChar c, 0x80 ≤ b.toNat := by
  have hgt : ¬c.val.toNat ≤ 127 := by unfold IsAscii Char.toNat at h; omega
  have hv := toNat_valid c
  unfold Char.toNat at hv
  intro b hb
  unfold String.utf8EncodeChar at hb
  simp only [if_neg hgt] at hb
  split_ifs at hb <;>
    simp only [List.mem_cons, List.not_mem_nil, or_false] at hb <;>
    rcases hb with rfl | rfl | rfl | rfl <;> simp only [UInt8.toNat_ofNat'] <;> omega

/-- A UTF-8 form is never empty. -/
theorem utf8EncodeChar_length_pos (c : Char) : 0 < (String.utf8EncodeChar c).length := by
  rw [String.length_utf8EncodeChar]
  exact c.utf8Size_pos

/-- A character outside ASCII needs more bytes than units. -/
theorem utf16Char_length_lt {c : Char} (h : ¬IsAscii c) :
    (utf16Char c).length < (String.utf8EncodeChar c).length := by
  have hgt : ¬c.val.toNat ≤ 127 := by unfold IsAscii Char.toNat at h; omega
  unfold utf16Char String.utf8EncodeChar Char.toNat
  simp only [if_neg hgt]
  split_ifs <;> simp only [List.length_cons, List.length_nil] <;> omega

/-- An ASCII character needs one byte and one unit. -/
theorem utf16Char_length_ascii {c : Char} (h : IsAscii c) :
    (utf16Char c).length = (String.utf8EncodeChar c).length := by
  rw [utf8EncodeChar_ascii h, utf16Char_of_lt (by unfold IsAscii at h; omega)]
  rfl

/-- The UTF-16 form of a text is never longer than its UTF-8 form. -/
theorem utf16_length_le (t : List Char) : (utf16 t).length ≤ (utf8 t).length := by
  induction t with
  | nil => simp
  | cons c t ih =>
    have hc : (utf16Char c).length ≤ (String.utf8EncodeChar c).length := by
      by_cases h : IsAscii c
      · exact (utf16Char_length_ascii h).le
      · exact (utf16Char_length_lt h).le
    simp only [utf16_cons, utf8_cons, List.length_append]
    omega

/-- The two forms of a text have one length exactly when the text is ASCII. -/
theorem utf16_length_eq_iff (t : List Char) :
    (utf16 t).length = (utf8 t).length ↔ ∀ c ∈ t, IsAscii c := by
  induction t with
  | nil => simp
  | cons c t ih =>
    have ht := utf16_length_le t
    simp only [utf16_cons, utf8_cons, List.length_append, List.forall_mem_cons, ← ih]
    by_cases h : IsAscii c
    · have hc := utf16Char_length_ascii h
      constructor
      · intro heq
        exact ⟨h, by omega⟩
      · rintro ⟨_, heq⟩
        omega
    · have hc := utf16Char_length_lt h
      constructor
      · intro heq
        omega
      · rintro ⟨h', _⟩
        exact absurd h' h

/-- The UTF-8 form of an ASCII text is its characters, one byte each. -/
theorem utf8_ascii {t : List Char} (h : ∀ c ∈ t, IsAscii c) :
    utf8 t = t.map (fun c => UInt8.ofNat c.toNat) := by
  induction t with
  | nil => rfl
  | cons c t ih =>
    rw [List.forall_mem_cons] at h
    rw [utf8_cons, utf8EncodeChar_ascii h.1, ih h.2]
    rfl

/-- The UTF-16 form of an ASCII text is its characters, one unit each. -/
theorem utf16_ascii {t : List Char} (h : ∀ c ∈ t, IsAscii c) :
    utf16 t = t.map (fun c => UInt16.ofNat c.toNat) := by
  induction t with
  | nil => rfl
  | cons c t ih =>
    rw [List.forall_mem_cons] at h
    have hlt : c.toNat < 0x10000 := by have := h.1; unfold IsAscii at this; omega
    rw [utf16_cons, utf16Char_of_lt hlt, ih h.2]
    rfl

/-- A text whose UTF-8 bytes are all below 128 is ASCII. -/
theorem ascii_of_utf8 {t : List Char} (h : ∀ b ∈ utf8 t, b.toNat < 0x80) :
    ∀ c ∈ t, IsAscii c := by
  intro c hc
  by_contra hna
  obtain ⟨b, hb⟩ := List.exists_mem_of_length_pos (utf8EncodeChar_length_pos c)
  have hlt := h b (List.mem_flatMap.mpr ⟨c, hc, hb⟩)
  have hge := utf8EncodeChar_high hna b hb
  omega

/-- The unit of a basic-plane character decodes to that character. -/
theorem unitChar_ofNat {c : Char} (h : c.toNat < 0x10000) :
    unitChar (UInt16.ofNat c.toNat) = c := by
  have hv := toNat_valid c
  have hu : (UInt16.ofNat c.toNat).toNat = c.toNat := by
    simp only [UInt16.toNat_ofNat']
    omega
  have hns : ¬(IsHigh (UInt16.ofNat c.toNat) ∨ IsLow (UInt16.ofNat c.toNat)) := by
    unfold IsHigh IsLow
    omega
  rw [unitChar, if_neg hns, hu, Char.ofNat_toNat]

/-- A basic-plane character is not the first unit of a pair. -/
theorem not_isHigh_ofNat {c : Char} (h : c.toNat < 0x10000) :
    ¬IsHigh (UInt16.ofNat c.toNat) := by
  have hv := toNat_valid c
  unfold IsHigh
  simp only [UInt16.toNat_ofNat']
  omega

/-- A unit that opens no pair decodes on its own. -/
theorem decode16_cons_of_not_high {u : UInt16} (h : ¬IsHigh u) (s : List UInt16) :
    decode16 (u :: s) = unitChar u :: decode16 s := by
  cases s with
  | nil => rfl
  | cons w s => rw [decode16, if_neg (fun hp => h hp.1)]

/-- The units of one character, in front of any others, decode to it. -/
theorem decode16_utf16Char (c : Char) (s : List UInt16) :
    decode16 (utf16Char c ++ s) = c :: decode16 s := by
  have hv := toNat_valid c
  by_cases h : c.toNat < 0x10000
  · rw [utf16Char_of_lt h, List.singleton_append,
      decode16_cons_of_not_high (not_isHigh_ofNat h), unitChar_ofNat h]
  · have hhi : (UInt16.ofNat (0xD800 + (c.toNat - 0x10000) / 0x400)).toNat =
        0xD800 + (c.toNat - 0x10000) / 0x400 := by
      simp only [UInt16.toNat_ofNat']
      omega
    have hlo : (UInt16.ofNat (0xDC00 + (c.toNat - 0x10000) % 0x400)).toNat =
        0xDC00 + (c.toNat - 0x10000) % 0x400 := by
      simp only [UInt16.toNat_ofNat']
      omega
    have hpair : IsHigh (UInt16.ofNat (0xD800 + (c.toNat - 0x10000) / 0x400)) ∧
        IsLow (UInt16.ofNat (0xDC00 + (c.toNat - 0x10000) % 0x400)) := by
      unfold IsHigh IsLow
      omega
    have hnum : 0x10000 + (0xD800 + (c.toNat - 0x10000) / 0x400 - 0xD800) * 0x400 +
        (0xDC00 + (c.toNat - 0x10000) % 0x400 - 0xDC00) = c.toNat := by omega
    rw [utf16Char, if_neg h, List.cons_append, List.singleton_append, decode16, if_pos hpair,
      pairChar, hhi, hlo, hnum, Char.ofNat_toNat]

/-- **Round trip.** Decoding the UTF-16 form of a text gives the text back. -/
@[simp] theorem decode16_utf16 (t : List Char) : decode16 (utf16 t) = t := by
  induction t with
  | nil => rfl
  | cons c t ih => rw [utf16_cons, decode16_utf16Char, ih]

/-- A character other than NUL has no zero byte. -/
theorem zero_not_mem_utf8EncodeChar {c : Char} (h : c ≠ '\x00') :
    0 ∉ String.utf8EncodeChar c := by
  intro hmem
  by_cases ha : IsAscii c
  · rw [utf8EncodeChar_ascii ha, List.mem_singleton] at hmem
    have hnat := congrArg UInt8.toNat hmem
    unfold IsAscii at ha
    simp only [UInt8.toNat_ofNat', UInt8.toNat_zero] at hnat
    have hzero : c.toNat = 0 := by omega
    exact h (Char.toNat_inj.mp hzero)
  · have hge := utf8EncodeChar_high ha 0 hmem
    simp at hge

/-- A text without NUL has no zero byte. -/
theorem zero_not_mem_utf8 {t : List Char} (h : '\x00' ∉ t) : 0 ∉ utf8 t := by
  intro hmem
  obtain ⟨c, hc, hz⟩ := List.mem_flatMap.mp hmem
  exact zero_not_mem_utf8EncodeChar (fun heq => h (heq ▸ hc)) hz

/-- The number of the character with a valid number. -/
theorem toNat_ofNat {n : ℕ} (hv : n.isValidChar) : (Char.ofNat n).toNat = n := by
  rw [Char.ofNat, dif_pos hv]
  rfl

/-- A number of a scalar value other than zero is not NUL. -/
theorem ofNat_ne_nul {n : ℕ} (hn : n ≠ 0) (hv : n.isValidChar) : Char.ofNat n ≠ '\x00' := by
  intro h
  have hnat := congrArg Char.toNat h
  rw [toNat_ofNat hv] at hnat
  exact hn hnat

/-- A non-zero unit does not decode to NUL. -/
theorem unitChar_ne_nul {u : UInt16} (h : u ≠ 0) : unitChar u ≠ '\x00' := by
  unfold unitChar
  split_ifs with hs
  · decide
  · have hlt := u.toNat_lt
    apply ofNat_ne_nul
    · exact fun hz => h (UInt16.toNat_inj.mp hz)
    · unfold IsHigh IsLow at hs
      unfold Nat.isValidChar
      omega

/-- A surrogate pair does not decode to NUL. -/
theorem pairChar_ne_nul {u w : UInt16} (hu : IsHigh u) (hw : IsLow w) :
    pairChar u w ≠ '\x00' := by
  unfold IsHigh at hu
  unfold IsLow at hw
  apply ofNat_ne_nul
  · omega
  · unfold Nat.isValidChar
    omega

/-- Units other than zero decode to characters other than NUL. -/
theorem nul_not_mem_decode16 {s : List UInt16} (h : 0 ∉ s) : '\x00' ∉ decode16 s := by
  induction s using decode16.induct with
  | case1 => simp [decode16]
  | case2 u =>
    rw [decode16, List.mem_singleton]
    exact (unitChar_ne_nul (fun hz => h (by simp [hz]))).symm
  | case3 u w s hp ih =>
    rw [decode16, if_pos hp]
    simp only [List.mem_cons, not_or] at h ⊢
    exact ⟨(pairChar_ne_nul hp.1 hp.2).symm, ih h.2.2⟩
  | case4 u w s hp ih =>
    rw [decode16, if_neg hp]
    rw [List.mem_cons, not_or] at h ⊢
    exact ⟨(unitChar_ne_nul (fun hz => h.1 hz.symm)).symm, ih h.2⟩

/-- The first unit of a character is zero only for NUL. -/
theorem zero_not_mem_utf16Char {c : Char} (h : c ≠ '\x00') : 0 ∉ utf16Char c := by
  have hv := toNat_valid c
  have hz : c.toNat ≠ 0 := fun hz => h (Char.toNat_inj.mp hz)
  intro hmem
  unfold utf16Char at hmem
  split_ifs at hmem with hlt <;>
    simp only [List.mem_cons, List.not_mem_nil, or_false] at hmem
  · have hnat := congrArg UInt16.toNat hmem
    simp only [UInt16.toNat_ofNat', UInt16.toNat_zero] at hnat
    omega
  · rcases hmem with hmem | hmem <;>
    · have hnat := congrArg UInt16.toNat hmem
      simp only [UInt16.toNat_ofNat', UInt16.toNat_zero] at hnat
      omega

/-- Cutting the UTF-16 form at its first zero unit cuts the text at its first NUL. -/
theorem takeWhile_utf16 (t : List Char) :
    (utf16 t).takeWhile (· ≠ 0) = utf16 (t.takeWhile (· ≠ '\x00')) := by
  induction t with
  | nil => rfl
  | cons c t ih =>
    by_cases h : c = '\x00'
    · subst h
      rfl
    · rw [utf16_cons, Terminator.takeWhile_append (zero_not_mem_utf16Char h), ih]
      simp [h]

/-- The bytes `b` are the whole UTF-8 encoding of the text whose UTF-16 units are `s`. -/
def Encodes (b : List UInt8) (s : List UInt16) : Prop := ∃ t, s = utf16 t ∧ b = utf8 t

/-- The encoding of the units of a text is the one of the text. -/
theorem encodes_utf16_iff {b : List UInt8} {t : List Char} : Encodes b (utf16 t) ↔ b = utf8 t := by
  constructor
  · rintro ⟨t', ht, rfl⟩
    have htext := congrArg decode16 ht
    rw [decode16_utf16, decode16_utf16] at htext
    rw [htext]
  · rintro rfl
    exact ⟨t, rfl, rfl⟩

/-- The units of an ASCII string, one byte each. -/
def narrow (s : List UInt16) : List UInt8 := s.map (fun u => UInt8.ofNat u.toNat)

/-- Units below 128 are the UTF-16 form of a text of ASCII characters. -/
theorem exists_text_of_ascii {s : List UInt16} (h : ∀ u ∈ s, u.toNat < 0x80) :
    ∃ t : List Char, (∀ c ∈ t, IsAscii c) ∧ utf16 t = s ∧ utf8 t = narrow s := by
  induction s with
  | nil => exact ⟨[], by simp, rfl, rfl⟩
  | cons u s ih =>
    rw [List.forall_mem_cons] at h
    obtain ⟨t, hascii, h16, h8⟩ := ih h.2
    have hu := h.1
    have hvalid : u.toNat.isValidChar := by unfold Nat.isValidChar; omega
    have hnum := toNat_ofNat hvalid
    have ha : IsAscii (Char.ofNat u.toNat) := by unfold IsAscii; omega
    refine ⟨Char.ofNat u.toNat :: t, ?_, ?_, ?_⟩
    · exact List.forall_mem_cons.mpr ⟨ha, hascii⟩
    · rw [utf16_cons, utf16Char_of_lt (by omega), hnum, h16]
      simp
    · rw [utf8_cons, utf8EncodeChar_ascii ha, hnum, h8]
      rfl

/-- An ASCII string is encoded by its narrowed units. -/
theorem encodes_narrow {s : List UInt16} (h : ∀ u ∈ s, u.toNat < 0x80) :
    Encodes (narrow s) s := by
  obtain ⟨t, _, h16, h8⟩ := exists_text_of_ascii h
  exact ⟨t, h16.symm, h8.symm⟩

/-- The text of an ASCII string decodes to itself and narrows to its bytes. -/
theorem utf8_decode16_ascii {s : List UInt16} (h : ∀ u ∈ s, u.toNat < 0x80) :
    utf8 (decode16 s) = narrow s := by
  obtain ⟨t, _, h16, h8⟩ := exists_text_of_ascii h
  rw [← h16, decode16_utf16, h8, h16]

/-- The bytes and units of one ASCII text. -/
theorem narrow_utf16_ascii {t : List Char} (h : ∀ c ∈ t, IsAscii c) :
    narrow (utf16 t) = utf8 t ∧ ∀ u ∈ utf16 t, u.toNat < 0x80 := by
  rw [utf16_ascii h, utf8_ascii h]
  constructor
  · rw [narrow, List.map_map]
    apply List.map_congr_left
    intro c hc
    have ha := h c hc
    unfold IsAscii at ha
    simp only [Function.comp_apply, UInt16.toNat_ofNat']
    congr 1
    omega
  · intro u hu
    obtain ⟨c, hc, rfl⟩ := List.mem_map.mp hu
    have ha := h c hc
    unfold IsAscii at ha
    simp only [UInt16.toNat_ofNat']
    omega

/-- An encoding with no more bytes than units is that of an ASCII string. -/
theorem Encodes.ascii_of_length_le {b : List UInt8} {s : List UInt16} (h : Encodes b s)
    (hlen : b.length ≤ s.length) : (∀ u ∈ s, u.toNat < 0x80) ∧ b = narrow s := by
  obtain ⟨t, rfl, rfl⟩ := h
  have heq := Nat.le_antisymm (utf16_length_le t) hlen
  have hn := narrow_utf16_ascii ((utf16_length_eq_iff t).mp heq)
  exact ⟨hn.2, hn.1.symm⟩

/-- An encoding whose bytes are all below 128 is that of an ASCII string. -/
theorem Encodes.ascii_of_bytes {b : List UInt8} {s : List UInt16} (h : Encodes b s)
    (hb : ∀ x ∈ b, x.toNat < 0x80) : (∀ u ∈ s, u.toNat < 0x80) ∧ b = narrow s := by
  obtain ⟨t, rfl, rfl⟩ := h
  have hn := narrow_utf16_ascii (ascii_of_utf8 hb)
  exact ⟨hn.2, hn.1.symm⟩

/-- The number of the character of a surrogate pair. -/
theorem toNat_pairChar {u w : UInt16} (hu : IsHigh u) (hw : IsLow w) :
    (pairChar u w).toNat = 0x10000 + (u.toNat - 0xD800) * 0x400 + (w.toNat - 0xDC00) := by
  unfold IsHigh at hu
  unfold IsLow at hw
  apply toNat_ofNat
  unfold Nat.isValidChar
  omega

/-- A text does not begin with the second unit of a pair. -/
theorem decode16_cons_utf16 (u : UInt16) (t : List Char) :
    decode16 (u :: utf16 t) = unitChar u :: t := by
  cases t with
  | nil => rfl
  | cons c t =>
    have hv := toNat_valid c
    have hfirst : ∃ w s, utf16 (c :: t) = w :: s ∧ ¬IsLow w := by
      rw [utf16_cons, utf16Char]
      unfold IsLow
      split_ifs with h
      · refine ⟨_, _, rfl, ?_⟩
        simp only [UInt16.toNat_ofNat']
        omega
      · refine ⟨_, _, rfl, ?_⟩
        simp only [UInt16.toNat_ofNat']
        omega
    obtain ⟨w, s, hunits, hlow⟩ := hfirst
    rw [hunits, decode16, if_neg fun hp => hlow hp.2, ← hunits, decode16_utf16]

/-- The units of a text, behind any others, decode to it. -/
theorem decode16_append_utf16 (s : List UInt16) (t : List Char) :
    decode16 (s ++ utf16 t) = decode16 s ++ t := by
  induction s using decode16.induct with
  | case1 => exact decode16_utf16 t
  | case2 u => exact decode16_cons_utf16 u t
  | case3 u w s hp ih =>
    rw [List.cons_append, List.cons_append, decode16, if_pos hp, ih, decode16, if_pos hp,
      List.cons_append]
  | case4 u w s hp ih =>
    rw [List.cons_append, List.cons_append, decode16, if_neg hp, ← List.cons_append, ih, decode16,
      if_neg hp, List.cons_append]

/-- The byte of an ASCII character comes from this character. -/
theorem mem_of_mem_utf8 {c : Char} (hc : IsAscii c) {t : List Char}
    (h : UInt8.ofNat c.toNat ∈ utf8 t) : c ∈ t := by
  obtain ⟨d, hd, hmem⟩ := List.mem_flatMap.mp h
  unfold IsAscii at hc
  by_cases ha : IsAscii d
  · rw [utf8EncodeChar_ascii ha, List.mem_singleton] at hmem
    have hnat := congrArg UInt8.toNat hmem
    unfold IsAscii at ha
    simp only [UInt8.toNat_ofNat'] at hnat
    have heq : c.toNat = d.toNat := by omega
    rw [Char.toNat_inj.mp heq]
    exact hd
  · have hhigh := utf8EncodeChar_high ha _ hmem
    simp only [UInt8.toNat_ofNat'] at hhigh
    omega

/-- An ASCII character, the question mark apart, is decoded from its own unit. -/
theorem mem_of_mem_decode16 {c : Char} (hc : IsAscii c) (hq : c ≠ '?') {s : List UInt16}
    (h : c ∈ decode16 s) : UInt16.ofNat c.toNat ∈ s := by
  unfold IsAscii at hc
  have hunit : ∀ u, c = unitChar u → UInt16.ofNat c.toNat = u := by
    intro u hu
    unfold unitChar at hu
    split_ifs at hu with hs
    · exact absurd hu hq
    · have hlt := u.toNat_lt
      have hvalid : u.toNat.isValidChar := by
        unfold IsHigh IsLow at hs
        unfold Nat.isValidChar
        omega
      rw [hu, toNat_ofNat hvalid, UInt16.ofNat_toNat]
  have hpair : ∀ u w, IsHigh u → IsLow w → c ≠ pairChar u w := by
    intro u w hu hw heq
    have hnum := toNat_pairChar hu hw
    rw [← heq] at hnum
    omega
  induction s using decode16.induct with
  | case1 => simp [decode16] at h
  | case2 u =>
    rw [decode16, List.mem_singleton] at h
    rw [hunit u h]
    exact List.mem_cons_self
  | case3 u w s hp ih =>
    rw [decode16, if_pos hp, List.mem_cons] at h
    rcases h with h | h
    · exact absurd h (hpair u w hp.1 hp.2)
    · exact List.mem_cons_of_mem _ (List.mem_cons_of_mem _ (ih h))
  | case4 u w s hp ih =>
    rw [decode16, if_neg hp, List.mem_cons] at h
    rcases h with h | h
    · rw [hunit u h]
      exact List.mem_cons_self
    · exact List.mem_cons_of_mem _ (ih h)

/-- Decoded units need at least one byte each, and exactly one each only in ASCII. -/
theorem length_le_utf8_decode16 (s : List UInt16) :
    s.length ≤ (utf8 (decode16 s)).length ∧
      ((utf8 (decode16 s)).length = s.length → ∀ c ∈ decode16 s, IsAscii c) := by
  have hunit : ∀ c : Char, 1 ≤ (String.utf8EncodeChar c).length ∧
      ((String.utf8EncodeChar c).length = 1 → IsAscii c) := by
    intro c
    refine ⟨utf8EncodeChar_length_pos c, fun hone => ?_⟩
    by_contra hna
    have hlt := utf16Char_length_lt hna
    have hpos : 0 < (utf16Char c).length := by
      unfold utf16Char
      split_ifs <;> simp
    omega
  have hpair : ∀ u w, IsHigh u → IsLow w → 2 < (String.utf8EncodeChar (pairChar u w)).length := by
    intro u w hu hw
    have hnum := toNat_pairChar hu hw
    have hna : ¬IsAscii (pairChar u w) := by unfold IsAscii; omega
    have hlt := utf16Char_length_lt hna
    have htwo : (utf16Char (pairChar u w)).length = 2 := by
      rw [utf16Char, if_neg (by omega)]
      rfl
    omega
  induction s using decode16.induct with
  | case1 => simp [decode16]
  | case2 u =>
    obtain ⟨hpos, hascii⟩ := hunit (unitChar u)
    simp only [decode16, utf8_cons, utf8_nil, List.append_nil, List.length_singleton,
      List.forall_mem_singleton]
    exact ⟨hpos, hascii⟩
  | case3 u w s hp ih =>
    have hlong := hpair u w hp.1 hp.2
    rw [decode16, if_pos hp, utf8_cons, List.length_append, List.length_cons, List.length_cons]
    refine ⟨by omega, fun heq => ?_⟩
    omega
  | case4 u w s hp ih =>
    obtain ⟨hpos, hascii⟩ := hunit (unitChar u)
    rw [List.length_cons] at ih
    rw [decode16, if_neg hp, utf8_cons, List.length_append, List.length_cons, List.length_cons]
    refine ⟨by omega, fun heq => ?_⟩
    exact List.forall_mem_cons.mpr ⟨hascii (by omega), ih.2 (by omega)⟩

end Unicode
