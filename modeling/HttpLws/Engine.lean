import HttpLws.Lib.Unicode
import HttpLws.Lib.KeyedMap
import Mathlib.Algebra.Group.Int.Defs
import Mathlib.Algebra.Group.Nat.Defs
import Mathlib.Data.List.Infix

/-!
# Strings and maps of the engine

The plugin is written against Unreal's containers. This file gives the part it
uses: `FString` with its conversions to and from narrow characters, splitting
with `ParseIntoArray`, the case-insensitive search and `TMap` with string keys.
A TCHAR is a UTF-16 unit, and a string is its units without the terminator; a
unit that is zero may occur inside and ends the string for every C function.
-/

namespace HttpLws

/-- The engine's wide character on Windows. -/
abbrev TCHAR := UInt16

/-- An `FString` without its terminator. -/
abbrev FString := List TCHAR

/-- A `TEXT("...")` literal. -/
def text (s : String) : FString := Unicode.utf16 s.toList

/-- The bytes of a narrow string literal, without its terminator. -/
def ascii (s : String) : List UInt8 := Unicode.utf8 s.toList

/-- `FString::Len` counts TCHARs. -/
def FString.len (s : FString) : ℕ := s.length

/-- The decimal digits of a length. -/
def decimal (n : ℕ) : List UInt8 := (Nat.toDigits 10 n).map fun c => UInt8.ofNat c.toNat

/-- `FString::FromInt` of a length. -/
def FString.fromInt (n : ℕ) : FString := (Nat.toDigits 10 n).map fun c => UInt16.ofNat c.toNat

/-- What `*Str` shows to a function that takes a C string. -/
def FString.cString (s : FString) : FString := s.takeWhile (· ≠ 0)

/-- `TCHAR_TO_UTF8(*Str)`: the converted buffer, up to and including its
terminator. The macro sees a C string. -/
def tcharToUtf8 (s : FString) : List UInt8 :=
  Unicode.utf8 (Unicode.decode16 s.cString) ++ [0]

/-- How the engine turns one `char` into one TCHAR. ASCII is kept; what a byte
from 128 on becomes differs between engine versions, but it stays outside ASCII
or is the replacement character. -/
structure AnsiConversion where
  /-- The TCHAR of a byte. -/
  widen : UInt8 → TCHAR
  /-- ASCII bytes keep their number. -/
  ascii : ∀ b : UInt8, b.toNat < 0x80 → (widen b).toNat = b.toNat
  /-- Other bytes do not become ASCII characters, the question mark apart. -/
  high : ∀ b : UInt8, 0x80 ≤ b.toNat → 0x80 ≤ (widen b).toNat ∨ (widen b).toNat = 0x3F

/-- The conversion that keeps the number of every byte. -/
def AnsiConversion.latin1 : AnsiConversion where
  widen b := UInt16.ofNat b.toNat
  ascii b h := by simp only [UInt16.toNat_ofNat']; omega
  high b h := by have := b.toNat_lt; simp only [UInt16.toNat_ofNat']; omega

/-- A `size_t` passed as an `int32`. -/
def toInt32 (n : ℕ) : ℤ :=
  if n % 2 ^ 32 < 2 ^ 31 then (n % 2 ^ 32 : ℕ) else (n % 2 ^ 32 : ℕ) - 2 ^ 32

/-- `FString::AppendChars` on `const char*`: one TCHAR for each byte. A negative
count fails the engine's check, and a count past the memory reads what is not there. -/
def FString.appendChars (conv : AnsiConversion) (s : FString) (str : List UInt8)
    (count : ℤ) : Option FString :=
  if 0 ≤ count ∧ count ≤ str.length then some (s ++ (str.take count.toNat).map conv.widen)
  else none

/-- `FString::ParseIntoArray` for a delimiter of one character, with the default
culling of empty pieces. It searches the string as a C string. -/
def FString.parseIntoArray (s : FString) (delim : TCHAR) : List FString :=
  (s.cString.splitOn delim).filter (· ≠ [])

/-- Lower case of one character, as the engine's string comparison takes it. -/
def lowerChar (c : TCHAR) : TCHAR := if 65 ≤ c ∧ c ≤ 90 then c + 32 else c

/-- The form in which strings are compared without regard to case. -/
def FString.lower (s : FString) : FString := s.map lowerChar

/-- `FString::Contains` with its default search: a substring search that ignores
case. Nothing contains the empty string. -/
def FString.contains (s sub : FString) : Bool :=
  decide (sub.cString ≠ [] ∧ sub.cString.lower <:+: s.cString.lower)

/-- `TMap<FString, V>`: keys that differ only in case are the same key. -/
abbrev FStringMap (V : Type) := KeyedMap FString.lower V

@[simp] theorem length_fromInt (n : ℕ) : (FString.fromInt n).len = (decimal n).length := by
  simp [FString.fromInt, FString.len, decimal]

/-- A length below 2^31 is passed unchanged. -/
theorem toInt32_of_lt {n : ℕ} (h : n < 2 ^ 31) : toInt32 n = n := by
  unfold toInt32
  split_ifs <;> omega

/-- A length from 2^31 on arrives smaller. -/
theorem toInt32_lt {n : ℕ} (h : 2 ^ 31 ≤ n) : toInt32 n < n := by
  unfold toInt32
  split_ifs <;> omega

/-- Appending a part of the memory behind a pointer. -/
theorem appendChars_append (conv : AnsiConversion) (s : FString) (str rest : List UInt8) :
    s.appendChars conv (str ++ rest) str.length = some (s ++ str.map conv.widen) := by
  have hcount : 0 ≤ (str.length : ℤ) ∧ (str.length : ℤ) ≤ (str ++ rest).length := by
    rw [List.length_append]
    omega
  rw [FString.appendChars, if_pos hcount]
  simp

/-- What is appended has one TCHAR for each counted byte. -/
theorem length_of_appendChars {conv : AnsiConversion} {s s' : FString} {str : List UInt8}
    {count : ℤ} (h : s.appendChars conv str count = some s') :
    (s'.length : ℤ) = s.length + count := by
  unfold FString.appendChars at h
  split_ifs at h with hcount
  obtain rfl := Option.some.inj h
  simp only [List.length_append, List.length_map, List.length_take]
  omega

/-- Widening does not confuse an ASCII byte, the question mark apart, with another. -/
theorem AnsiConversion.widen_eq_iff (conv : AnsiConversion) {b d : UInt8}
    (hd : d.toNat < 0x80) (hq : d.toNat ≠ 0x3F) : conv.widen b = conv.widen d ↔ b = d := by
  constructor
  · intro h
    have hnat := congrArg UInt16.toNat h
    rw [conv.ascii d hd] at hnat
    by_cases hb : b.toNat < 0x80
    · rw [conv.ascii b hb] at hnat
      exact UInt8.toNat_inj.mp hnat
    · have := conv.high b (by omega)
      omega
  · rintro rfl
    rfl

/-- An ASCII byte widens to the TCHAR with its number. -/
theorem AnsiConversion.widen_ascii (conv : AnsiConversion) {b : UInt8} (hb : b.toNat < 0x80) :
    conv.widen b = UInt16.ofNat b.toNat := by
  apply UInt16.toNat_inj.mp
  rw [conv.ascii b hb]
  simp only [UInt16.toNat_ofNat']
  omega

/-- Widening keeps out an ASCII byte, the question mark apart, that was not there. -/
theorem AnsiConversion.not_mem_map_widen_iff (conv : AnsiConversion) {d : UInt8} {u : TCHAR}
    (hd : d.toNat < 0x80) (hq : d.toNat ≠ 0x3F) (hu : conv.widen d = u) (bytes : List UInt8) :
    u ∉ bytes.map conv.widen ↔ d ∉ bytes := by
  rw [← hu, List.mem_map, not_iff_not]
  constructor
  · rintro ⟨b, hb, heq⟩
    exact (conv.widen_eq_iff hd hq).mp heq ▸ hb
  · exact fun h => ⟨d, h, rfl⟩

/-- The zero byte widens to the zero unit. -/
theorem AnsiConversion.widen_zero (conv : AnsiConversion) : conv.widen 0 = 0 :=
  conv.widen_ascii (by decide)

/-- A string without a zero unit is its own C string. -/
theorem cString_of_zero_not_mem {s : FString} (h : 0 ∉ s) : s.cString = s :=
  Terminator.takeWhile_eq_self h

/-- A C string has no zero unit. -/
theorem zero_not_mem_cString (s : FString) : 0 ∉ s.cString := by
  intro h
  have := List.mem_takeWhile_imp h
  simp at this

/-- The bytes that a C function reads from a converted string. -/
theorem takeWhile_tcharToUtf8 (s : FString) :
    (tcharToUtf8 s).takeWhile (· ≠ 0) = Unicode.utf8 (Unicode.decode16 s.cString) := by
  have hzero : 0 ∉ Unicode.utf8 (Unicode.decode16 s.cString) :=
    Unicode.zero_not_mem_utf8 (Unicode.nul_not_mem_decode16 (zero_not_mem_cString s))
  rw [tcharToUtf8, Terminator.takeWhile_append_cons hzero]

/-- The bytes that a C function reads from a converted text without NUL. -/
theorem takeWhile_tcharToUtf8_utf16 {t : List Char} (h : '\x00' ∉ t) :
    (tcharToUtf8 (Unicode.utf16 t)).takeWhile (· ≠ 0) = Unicode.utf8 t := by
  rw [takeWhile_tcharToUtf8, FString.cString, Unicode.takeWhile_utf16,
    Terminator.takeWhile_eq_self h, Unicode.decode16_utf16]

/-- The bytes that a C function reads from a text without NUL and a literal behind it. -/
theorem takeWhile_tcharToUtf8_append_text {t : List Char} {s : String} (ht : '\x00' ∉ t)
    (hs : '\x00' ∉ s.toList) :
    (tcharToUtf8 (Unicode.utf16 t ++ text s)).takeWhile (· ≠ 0) = Unicode.utf8 t ++ ascii s := by
  have hnul : '\x00' ∉ t ++ s.toList := by
    rw [List.mem_append, not_or]
    exact ⟨ht, hs⟩
  rw [text, ← Unicode.utf16_append, takeWhile_tcharToUtf8_utf16 hnul, Unicode.utf8_append, ascii]

/-- Conversion of an ASCII string without zero units keeps its characters. -/
theorem tcharToUtf8_ascii {s : FString} (h : ∀ u ∈ s, u.toNat < 0x80) (hz : 0 ∉ s) :
    tcharToUtf8 s = Unicode.narrow s ++ [0] := by
  rw [tcharToUtf8, cString_of_zero_not_mem hz, Unicode.utf8_decode16_ascii h]

/-- A piece of a split list does not contain the separator, and is part of the list. -/
theorem of_mem_splitOn {d : TCHAR} {s piece : FString} (h : piece ∈ s.splitOn d) :
    d ∉ piece ∧ ∀ u ∈ piece, u ∈ s := by
  induction s generalizing piece with
  | nil =>
    rw [List.splitOn_nil, List.mem_singleton] at h
    simp [h]
  | cons u s ih =>
    rw [List.splitOn_cons_eq_if_modifyHead] at h
    split_ifs at h with hu
    · rcases List.mem_cons.mp h with rfl | h
      · simp
      · exact ⟨(ih h).1, fun v hv => List.mem_cons_of_mem u ((ih h).2 v hv)⟩
    · obtain ⟨first, rest, hsplit⟩ := List.exists_cons_of_ne_nil (List.splitOn_ne_nil d s)
      rw [hsplit, List.modifyHead_cons, List.mem_cons] at h
      rw [hsplit] at ih
      rcases h with rfl | h
      · obtain ⟨hd, hsub⟩ := ih List.mem_cons_self
        refine ⟨?_, fun v hv => ?_⟩
        · rw [List.mem_cons, not_or]
          exact ⟨fun heq => hu (by rw [heq, beq_self_eq_true]), hd⟩
        · rcases List.mem_cons.mp hv with rfl | hv
          · exact List.mem_cons_self
          · exact List.mem_cons_of_mem u (hsub v hv)
      · obtain ⟨hd, hsub⟩ := ih (List.mem_cons_of_mem first h)
        exact ⟨hd, fun v hv => List.mem_cons_of_mem u (hsub v hv)⟩

/-- What the pieces of a string look like. -/
theorem of_mem_parseIntoArray {s piece : FString} {delim : TCHAR}
    (h : piece ∈ s.parseIntoArray delim) :
    piece ≠ [] ∧ delim ∉ piece ∧ 0 ∉ piece ∧ ∀ u ∈ piece, u ∈ s := by
  rw [FString.parseIntoArray, List.mem_filter, decide_eq_true_eq] at h
  obtain ⟨hd, hsub⟩ := of_mem_splitOn h.1
  refine ⟨h.2, hd, ?_, ?_⟩
  · exact fun hzero => zero_not_mem_cString s (hsub 0 hzero)
  · exact fun u hu => (List.takeWhile_sublist _).subset (hsub u hu)

/-- A string that is a single piece. -/
theorem parseIntoArray_singleton {delim : TCHAR} {piece : FString} (hne : piece ≠ [])
    (hd : delim ∉ piece) (hz : 0 ∉ piece) : piece.parseIntoArray delim = [piece] := by
  rw [FString.parseIntoArray, cString_of_zero_not_mem hz, List.splitOn_eq_singleton hd,
    List.filter_cons_of_pos (by simpa using hne), List.filter_nil]

/-- A zero unit ends the C string; without one, what follows belongs to it. -/
theorem cString_append (s t : FString) :
    FString.cString (s ++ t) = if 0 ∈ s then s.cString else s ++ t.cString := by
  induction s with
  | nil => simp
  | cons u s ih =>
    unfold FString.cString at ih ⊢
    by_cases hu : u = 0
    · simp [hu]
    · rw [List.cons_append, List.takeWhile_cons_of_pos (by simpa using hu), ih,
        List.takeWhile_cons_of_pos (by simpa using hu)]
      simp only [List.mem_cons, Ne.symm hu, false_or]
      split_ifs <;> rfl

/-- What stands behind a separator adds its own pieces, unless a zero unit came before. -/
theorem parseIntoArray_append_cons {delim : TCHAR} (hdelim : delim ≠ 0) (s rest : FString) :
    FString.parseIntoArray (s ++ delim :: rest) delim =
      s.parseIntoArray delim ++ if 0 ∈ s then [] else rest.parseIntoArray delim := by
  unfold FString.parseIntoArray
  rw [cString_append]
  split_ifs with hzero
  · rw [List.append_nil]
  · have htail : FString.cString (delim :: rest) = delim :: rest.cString :=
      List.takeWhile_cons_of_pos (by simpa using hdelim)
    rw [htail, List.splitOn_append_cons_self, List.filter_append, cString_of_zero_not_mem hzero]

end HttpLws
