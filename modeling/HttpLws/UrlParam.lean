import HttpLws.Getters
import HttpLws.Lib.FirstMatch

/-!
# Reading one URL argument

`GetUrlParam` asks the library for an argument by name. The library answers -1 for a
missing argument and the length of the value otherwise, and only zero is tested:
a missing argument becomes a negative count, and an empty value a failure. So the
getter reads the argument exactly when it is there and its value is not empty. Of
several arguments with the name, the library takes the first one, which may be too
long for the buffer while a later one is not.
-/

namespace HttpLws

open Unicode FirstMatch

variable (conv : AnsiConversion) (overlong : List UInt8 → ℕ → List UInt8 × ℤ)

/-- The argument's text is `key=value`, for a key that is a text. -/
def Says (key : FString) (arg value : List UInt8) : Prop :=
  ∃ name, Encodes name key ∧ arg = name ++ 61 :: value

/-- The first argument named `key`, with its value. -/
def FirstSays (args : List (List UInt8)) (key : FString) (arg value : List UInt8) : Prop :=
  IsFirst (fun a => ∃ v, Says key a v) args arg ∧ Says key arg value

/-- The bytes of the buffer: values up to zero mean 1024. -/
def bufferBytes (bufferSize : ℤ) : ℕ := (if bufferSize ≤ 0 then 1024 else bufferSize).toNat

/-- The value of an argument named `key` that fits the buffer with its terminator. -/
def Fitting (args : List (List UInt8)) (key : FString) (size : ℕ) (value : List UInt8) : Prop :=
  ∃ arg ∈ args, Says key arg value ∧ arg.length < size

/-- What a lookup of `key` has to leave behind, with `value` in the out parameter before. -/
structure ReadsParam (args : List (List UInt8)) (key : FString) (size : ℕ) (value : FString)
    (r : Option (GetResult FString)) : Prop where
  /-- No count is negative, and none exceeds the buffer. -/
  completes : r ≠ none
  /-- If any argument of the name fits, the value of such an argument is read, the
  empty one included. -/
  present : (∃ v, Fitting args key size v) →
    ∃ g v, r = some g ∧ g.result = true ∧ Fitting args key size v ∧ g.out = v.map conv.widen
  /-- Without the argument, the getter fails and keeps the out parameter. -/
  absent : (∀ arg ∈ args, ∀ v, ¬Says key arg v) →
    ∃ g, r = some g ∧ g.result = false ∧ g.out = value

/-- The bytes stand for a value of an argument named `key` that fits, if there is one,
and are not empty then. -/
def StandsFor (args : List (List UInt8)) (key : FString) (size : ℕ) (bytes : List UInt8) : Prop :=
  (∃ v, Fitting args key size v) →
    bytes ≠ [] ∧ ∃ v, Fitting args key size v ∧ bytes.map conv.widen = v.map conv.widen

/-- For an argument that does not fit, the library reports a count that can be used,
with these bytes. -/
def Reports (arg : List UInt8) (size : ℕ) (bytes : List UInt8) : Prop :=
  ∃ n : ℕ, (overlong arg size).2 = n ∧ n ≤ (overlong arg size).1.length ∧
    bytes = (overlong arg size).1.take n

/-- The bytes that the library hands over for a key, unless the count it returns is
negative or more than it has filled in. -/
def handedOver (args : List (List UInt8)) (key : FString) (size : ℕ) : Option (List UInt8) :=
  let argument := lwsGetUrlargByNameSafe overlong args (argumentName key) size
  if 0 ≤ argument.2 ∧ argument.2 ≤ argument.1.length then
    some (argument.1.take argument.2.toNat)
  else none

/-- `GetUrlParam` by what is handed over: nothing usable aborts, empty bytes count as a
failure, other bytes are widened. -/
theorem getUrlParam_eq {params : FLwsParams} (args : List (List UInt8)) (value key : FString)
    (bufferSize : ℤ)
    (hreason : params.reason = .lwsCallbackHttp ∨ params.reason = .lwsCallbackHttpBody) :
    getUrlParam conv overlong args params value key bufferSize =
      (handedOver overlong args key (bufferBytes bufferSize)).map fun bytes =>
        if bytes = [] then ⟨false, value, [.query .lwsGetUrlargByNameSafe]⟩
        else ⟨true, bytes.map conv.widen, [.query .lwsGetUrlargByNameSafe]⟩ := by
  rw [getUrlParam, if_neg (not_turned_away hreason), handedOver, bufferBytes]
  dsimp only
  generalize lwsGetUrlargByNameSafe overlong args (argumentName key)
    (if bufferSize ≤ 0 then 1024 else bufferSize).toNat = argument
  obtain ⟨buffer, n⟩ := argument
  simp only [FString.appendChars, List.nil_append]
  by_cases hzero : n = 0
  · simp [hzero]
  · by_cases hcount : 0 ≤ n ∧ n ≤ buffer.length
    · have htake : buffer.take n.toNat ≠ [] := by
        rw [← List.length_pos_iff, List.length_take]
        omega
      rw [if_neg hzero, if_pos hcount, if_pos hcount, Option.map_some, Option.map_some,
        if_neg htake]
    · rw [if_neg hzero, if_neg hcount, if_neg hcount, Option.map_none, Option.map_none]

/-- The rule for one lookup, by what is handed over. -/
theorem readsParam_iff_handedOver {params : FLwsParams} (args : List (List UInt8))
    (value key : FString) (bufferSize : ℤ)
    (hreason : params.reason = .lwsCallbackHttp ∨ params.reason = .lwsCallbackHttpBody) :
    ReadsParam conv args key (bufferBytes bufferSize) value
        (getUrlParam conv overlong args params value key bufferSize) ↔
      ∃ bytes, handedOver overlong args key (bufferBytes bufferSize) = some bytes ∧
        StandsFor conv args key (bufferBytes bufferSize) bytes ∧
        ((∀ arg ∈ args, ∀ v, ¬Says key arg v) → bytes = []) := by
  rw [getUrlParam_eq conv overlong args value key bufferSize hreason]
  constructor
  · rintro ⟨hcompletes, hpresent, habsent⟩
    cases hhanded : handedOver overlong args key (bufferBytes bufferSize) with
    | none => exact absurd (by rw [hhanded]; rfl) hcompletes
    | some bytes =>
      rw [hhanded, Option.map_some] at hpresent habsent
      refine ⟨bytes, rfl, fun hfits => ?_, fun hnone => ?_⟩
      · obtain ⟨g, v, hg, hresult, hv, hout⟩ := hpresent hfits
        by_cases hempty : bytes = []
        · rw [if_pos hempty, Option.some.injEq] at hg
          rw [← hg] at hresult
          exact absurd hresult (by simp)
        · rw [if_neg hempty, Option.some.injEq] at hg
          rw [← hg] at hout
          exact ⟨hempty, v, hv, hout⟩
      · obtain ⟨g, hg, hresult, -⟩ := habsent hnone
        by_contra hempty
        rw [if_neg hempty, Option.some.injEq] at hg
        rw [← hg] at hresult
        exact absurd hresult (by simp)
  · rintro ⟨bytes, hhanded, hstands, hempty⟩
    rw [hhanded, Option.map_some]
    refine ⟨Option.some_ne_none _, fun hfits => ?_, fun hnone => ?_⟩
    · obtain ⟨hne, v, hv, hvalue⟩ := hstands hfits
      rw [if_neg hne]
      exact ⟨_, v, rfl, rfl, hv, hvalue⟩
    · rw [if_pos (hempty hnone)]
      exact ⟨_, rfl, rfl, rfl⟩

/-- What is handed over: the value of the argument that the library finds, or what it
reports if this argument does not fit. -/
theorem handedOver_eq_some_iff {args : List (List UInt8)} {key : FString} {size : ℕ}
    {bytes : List UInt8} :
    handedOver overlong args key size = some bytes ↔
      ∃ arg v, urlargByName args (argumentName key) = some (arg, v) ∧
        (arg.length < size → bytes = v) ∧
        (size ≤ arg.length → Reports overlong arg size bytes) := by
  rw [handedOver, lwsGetUrlargByNameSafe]
  cases hfound : urlargByName args (argumentName key) with
  | none => simp
  | some found =>
    obtain ⟨arg, v⟩ := found
    simp only [Option.some.injEq, Prod.mk.injEq, and_assoc]
    by_cases hfits : arg.length < size
    · simp [hfits, eq_comm]
    · have hreports : Reports overlong arg size bytes ↔
          (0 ≤ (overlong arg size).2 ∧ (overlong arg size).2 ≤ (overlong arg size).1.length) ∧
            (overlong arg size).1.take (overlong arg size).2.toNat = bytes := by
        constructor
        · rintro ⟨n, hn, hle, rfl⟩
          simpa [hn] using hle
        · rintro ⟨⟨hnonneg, hle⟩, rfl⟩
          exact ⟨(overlong arg size).2.toNat, by omega, by omega, rfl⟩
      simp [hfits, not_lt.mp hfits, hreports]

/-- **The rule for one lookup**, by the argument that the library finds. -/
theorem readsParam_iff_found {params : FLwsParams} (args : List (List UInt8))
    (value key : FString) (bufferSize : ℤ)
    (hreason : params.reason = .lwsCallbackHttp ∨ params.reason = .lwsCallbackHttpBody) :
    ReadsParam conv args key (bufferBytes bufferSize) value
        (getUrlParam conv overlong args params value key bufferSize) ↔
      ∃ arg v bytes, urlargByName args (argumentName key) = some (arg, v) ∧
        (arg.length < bufferBytes bufferSize → bytes = v) ∧
        (bufferBytes bufferSize ≤ arg.length →
          Reports overlong arg (bufferBytes bufferSize) bytes) ∧
        StandsFor conv args key (bufferBytes bufferSize) bytes ∧
        ((∀ arg ∈ args, ∀ v, ¬Says key arg v) → bytes = []) := by
  rw [readsParam_iff_handedOver conv overlong args value key bufferSize hreason]
  simp only [handedOver_eq_some_iff]
  constructor
  · rintro ⟨bytes, ⟨arg, v, hfound, hfits, hlong⟩, hbytes⟩
    exact ⟨arg, v, bytes, hfound, hfits, hlong, hbytes⟩
  · rintro ⟨arg, v, bytes, hfound, hfits, hlong, hbytes⟩
    exact ⟨bytes, ⟨arg, v, hfound, hfits, hlong⟩, hbytes⟩

/-- The name under which a text without NUL is looked up. -/
theorem argumentName_utf16 {t : List Char} (h : '\x00' ∉ t) :
    argumentName (utf16 t) = utf8 t ++ [61] :=
  takeWhile_tcharToUtf8_append_text h (by decide)

/-- What a text without NUL says is its UTF-8 form, an equals sign and the value. -/
theorem says_utf16_iff {t : List Char} {arg value : List UInt8} :
    Says (utf16 t) arg value ↔ arg = utf8 t ++ 61 :: value := by
  constructor
  · rintro ⟨name, hname, rfl⟩
    rw [encodes_utf16_iff.mp hname]
  · rintro rfl
    exact ⟨utf8 t, encodes_utf16_iff.mpr rfl, rfl⟩

/-- An argument begins with the name looked up for a text exactly when it says something
about the text. -/
theorem isPrefixOf_iff_says {t : List Char} {arg : List UInt8} :
    (utf8 t ++ [61]).isPrefixOf arg = true ↔ ∃ v, Says (utf16 t) arg v := by
  rw [List.isPrefixOf_iff_prefix]
  constructor
  · rintro ⟨v, rfl⟩
    exact ⟨v, says_utf16_iff.mpr (by simp)⟩
  · rintro ⟨v, hv⟩
    obtain rfl := says_utf16_iff.mp hv
    exact ⟨v, by simp⟩

/-- The library finds the first argument that a text without NUL names. -/
theorem urlargByName_eq_some {args : List (List UInt8)} {t : List Char} {arg value : List UInt8}
    (h : FirstSays args (utf16 t) arg value) :
    urlargByName args (utf8 t ++ [61]) = some (arg, value) := by
  obtain ⟨hfirst, hsays⟩ := h
  rw [urlargByName, (find?_eq_some_iff fun _ _ => isPrefixOf_iff_says).mpr hfirst]
  obtain rfl := says_utf16_iff.mp hsays
  simp

/-- The library finds nothing where no argument has the name. -/
theorem urlargByName_eq_none {args : List (List UInt8)} {t : List Char}
    (h : ∀ arg ∈ args, ∀ v, ¬Says (utf16 t) arg v) :
    urlargByName args (utf8 t ++ [61]) = none := by
  rw [urlargByName, Option.map_eq_none_iff, List.find?_eq_none]
  intro a ha hprefix
  obtain ⟨v, hv⟩ := isPrefixOf_iff_says.mp hprefix
  exact h a ha v hv

/-- If an argument has the name, there is a first one. -/
theorem exists_firstSays {args : List (List UInt8)} {key : FString}
    (h : ¬∀ arg ∈ args, ∀ v, ¬Says key arg v) : ∃ arg v, FirstSays args key arg v := by
  have hexists : ∃ arg ∈ args, ∃ v, Says key arg v := by
    by_contra hnone
    exact h fun arg harg v hv => hnone ⟨arg, harg, v, hv⟩
  obtain ⟨arg, hfirst⟩ := exists_isFirst_iff.mpr hexists
  obtain ⟨v, hv⟩ := hfirst.mem.2
  exact ⟨arg, v, hfirst, hv⟩

/-- What the library finds under a text without NUL is the first argument of that name. -/
theorem urlargByName_eq_some_iff {args : List (List UInt8)} {t : List Char}
    {arg value : List UInt8} :
    urlargByName args (utf8 t ++ [61]) = some (arg, value) ↔
      FirstSays args (utf16 t) arg value := by
  refine ⟨fun hfound => ?_, urlargByName_eq_some⟩
  have hnamed : ¬∀ arg ∈ args, ∀ v, ¬Says (utf16 t) arg v := by
    intro hnone
    rw [urlargByName_eq_none hnone] at hfound
    cases hfound
  obtain ⟨arg', value', hfirst⟩ := exists_firstSays hnamed
  rw [urlargByName_eq_some hfirst, Option.some.injEq, Prod.mk.injEq] at hfound
  obtain ⟨rfl, rfl⟩ := hfound
  exact hfirst

/-- The first argument of a name says whether its value will do, if it fits. -/
theorem standsFor_of_first {args : List (List UInt8)} {key : FString} {size : ℕ}
    {arg v : List UInt8} (hfirst : FirstSays args key arg v) (hfits : arg.length < size) :
    StandsFor conv args key size v ↔ v ≠ [] := by
  have hv : Fitting args key size v := ⟨arg, hfirst.1.mem.1, hfirst.2, hfits⟩
  exact ⟨fun hstands => (hstands ⟨v, hv⟩).1, fun hne _ => ⟨hne, v, hv, rfl⟩⟩

/-- The rule for a text without NUL, by the first argument of that name. -/
theorem readsParam_utf16_iff {params : FLwsParams} (args : List (List UInt8)) (value : FString)
    {t : List Char} (h : '\x00' ∉ t) (bufferSize : ℤ)
    (hreason : params.reason = .lwsCallbackHttp ∨ params.reason = .lwsCallbackHttpBody) :
    ReadsParam conv args (utf16 t) (bufferBytes bufferSize) value
        (getUrlParam conv overlong args params value (utf16 t) bufferSize) ↔
      ∃ arg v, FirstSays args (utf16 t) arg v ∧
        (arg.length < bufferBytes bufferSize → v ≠ []) ∧
        (bufferBytes bufferSize ≤ arg.length → ∃ bytes,
          Reports overlong arg (bufferBytes bufferSize) bytes ∧
            StandsFor conv args (utf16 t) (bufferBytes bufferSize) bytes) := by
  rw [readsParam_iff_found conv overlong args value (utf16 t) bufferSize hreason,
    argumentName_utf16 h]
  simp only [urlargByName_eq_some_iff]
  constructor
  · rintro ⟨arg, v, bytes, hfirst, hvalue, hlong, hstands, -⟩
    refine ⟨arg, v, hfirst, fun hfits => ?_, fun hover => ⟨bytes, hlong hover, hstands⟩⟩
    rw [hvalue hfits] at hstands
    exact (standsFor_of_first conv hfirst hfits).mp hstands
  · rintro ⟨arg, v, hfirst, hvalue, hlong⟩
    have hnamed : ¬∀ arg ∈ args, ∀ v, ¬Says (utf16 t) arg v :=
      fun hnone => hnone arg hfirst.1.mem.1 v hfirst.2
    by_cases hfits : arg.length < bufferBytes bufferSize
    · exact ⟨arg, v, v, hfirst, fun _ => rfl, fun hover => absurd hfits (not_lt.mpr hover),
        (standsFor_of_first conv hfirst hfits).mpr (hvalue hfits),
        fun hnone => absurd hnone hnamed⟩
    · obtain ⟨bytes, hreports, hstands⟩ := hlong (not_lt.mp hfits)
      exact ⟨arg, v, bytes, hfirst, fun hlt => absurd hlt hfits, fun _ => hreports, hstands,
        fun hnone => absurd hnone hnamed⟩

/-- A report of no bytes is the count zero. -/
theorem reports_nil_iff (arg : List UInt8) (size : ℕ) :
    Reports overlong arg size [] ↔ (overlong arg size).2 = 0 := by
  constructor
  · rintro ⟨n, hn, hle, hbytes⟩
    have hlen := congrArg List.length hbytes
    rw [List.length_take, Nat.min_eq_left hle] at hlen
    rw [hn, ← hlen]
    rfl
  · exact fun hzero => ⟨0, hzero, Nat.zero_le _, rfl⟩

/-- The rule for a key that is no text, and so the name of no argument. -/
theorem readsParam_of_no_text {params : FLwsParams} (args : List (List UInt8))
    (value : FString) {key : FString} (hkey : ∀ t, key ≠ utf16 t) (bufferSize : ℤ)
    (hreason : params.reason = .lwsCallbackHttp ∨ params.reason = .lwsCallbackHttpBody) :
    ReadsParam conv args key (bufferBytes bufferSize) value
        (getUrlParam conv overlong args params value key bufferSize) ↔
      ∃ arg v, urlargByName args (argumentName key) = some (arg, v) ∧
        (arg.length < bufferBytes bufferSize → v = []) ∧
        (bufferBytes bufferSize ≤ arg.length →
          (overlong arg (bufferBytes bufferSize)).2 = 0) := by
  have hunsaid : ∀ arg v, ¬Says key arg v := by
    rintro arg v ⟨_, ⟨t, ht, -⟩, -⟩
    exact hkey t ht
  rw [readsParam_iff_found conv overlong args value key bufferSize hreason]
  constructor
  · rintro ⟨arg, v, bytes, hfound, hfits, hlong, -, hempty⟩
    obtain rfl := hempty fun arg _ v => hunsaid arg v
    exact ⟨arg, v, hfound, fun hlt => (hfits hlt).symm,
      fun hover => (reports_nil_iff overlong _ _).mp (hlong hover)⟩
  · rintro ⟨arg, v, hfound, hfits, hlong⟩
    refine ⟨arg, v, [], hfound, fun hlt => (hfits hlt).symm,
      fun hover => (reports_nil_iff overlong _ _).mpr (hlong hover), ?_, fun _ => rfl⟩
    rintro ⟨w, arg, -, hsays, -⟩
    exact absurd hsays (hunsaid arg w)

/-- **Reading one argument.** For a key that is a text without NUL, `GetUrlParam` reads
the parameter as asked exactly when an argument has that name and the first of these has
a value that is not empty, or does not fit and the library still reports a usable count,
with the value of a later one if that fits. A key that is no text is the name of no
argument: there it does when the library finds an argument all the same, with an empty
value or the count zero. A text with NUL is looked up by what stands before the NUL, and
what is found under this has to stand for an argument named by the whole. -/
theorem getUrlParam_reads_iff (args : List (List UInt8)) (params : FLwsParams)
    (value key : FString) (bufferSize : ℤ)
    (hreason : params.reason = .lwsCallbackHttp ∨ params.reason = .lwsCallbackHttpBody) :
    (∀ t, key = utf16 t → '\x00' ∉ t →
      (ReadsParam conv args key (bufferBytes bufferSize) value
          (getUrlParam conv overlong args params value key bufferSize) ↔
        ∃ arg v, FirstSays args key arg v ∧ (arg.length < bufferBytes bufferSize → v ≠ []) ∧
          (bufferBytes bufferSize ≤ arg.length → ∃ bytes,
            Reports overlong arg (bufferBytes bufferSize) bytes ∧
              StandsFor conv args key (bufferBytes bufferSize) bytes))) ∧
    ((∀ t, key ≠ utf16 t) →
      (ReadsParam conv args key (bufferBytes bufferSize) value
          (getUrlParam conv overlong args params value key bufferSize) ↔
        ∃ arg v, urlargByName args (argumentName key) = some (arg, v) ∧
          (arg.length < bufferBytes bufferSize → v = []) ∧
          (bufferBytes bufferSize ≤ arg.length →
            (overlong arg (bufferBytes bufferSize)).2 = 0))) ∧
    ∀ t, key = utf16 t → '\x00' ∈ t →
      (ReadsParam conv args key (bufferBytes bufferSize) value
          (getUrlParam conv overlong args params value key bufferSize) ↔
        ∃ arg v bytes, urlargByName args (argumentName key) = some (arg, v) ∧
          (arg.length < bufferBytes bufferSize → bytes = v) ∧
          (bufferBytes bufferSize ≤ arg.length →
            Reports overlong arg (bufferBytes bufferSize) bytes) ∧
          StandsFor conv args key (bufferBytes bufferSize) bytes ∧
          ((∀ arg ∈ args, ∀ v, ¬Says key arg v) → bytes = [])) := by
  refine ⟨?_, fun hkey => ?_, fun _ _ _ => ?_⟩
  · rintro t rfl h
    exact readsParam_utf16_iff conv overlong args value h bufferSize hreason
  · exact readsParam_of_no_text conv overlong args value hkey bufferSize hreason
  · exact readsParam_iff_found conv overlong args value key bufferSize hreason

/-- The argument `id=7` is read. -/
theorem id_param_read :
    ReadsParam .latin1 [ascii "id=7"] (text "id") (bufferBytes 0) []
      (getUrlParam .latin1 (fun _ _ => ([], -1)) [ascii "id=7"]
        ⟨1, none, 0, .lwsCallbackHttp, 0⟩ [] (text "id") 0) := by
  obtain ⟨htext, -⟩ := getUrlParam_reads_iff .latin1 (fun _ _ => ([], -1)) [ascii "id=7"]
    ⟨1, none, 0, .lwsCallbackHttp, 0⟩ [] (text "id") 0 (Or.inl rfl)
  refine (htext "id".toList rfl (by decide)).mpr ⟨ascii "id=7", ascii "7", ?_, ?_, ?_⟩
  · have hsays : Says (text "id") (ascii "id=7") (ascii "7") :=
      ⟨ascii "id", ⟨"id".toList, rfl, rfl⟩, by decide⟩
    exact ⟨isFirst_cons_iff.mpr (Or.inl ⟨rfl, ascii "7", hsays⟩), hsays⟩
  · exact fun _ => by decide
  · exact fun hlong => absurd hlong (by decide)

/-- A request without arguments aborts the getter, and `id=` is taken for missing. Behind
`id=abcdefgh`, which a buffer of six bytes does not hold, `id=7` is not read when the
library reports nothing for the longer one. -/
theorem missing_and_empty_params_not_read :
    ¬ReadsParam .latin1 [] (text "id") (bufferBytes 1024) []
        (getUrlParam .latin1 (fun _ _ => ([], -1)) [] ⟨1, none, 0, .lwsCallbackHttp, 0⟩ []
          (text "id") 1024) ∧
      ¬ReadsParam .latin1 [ascii "id="] (text "id") (bufferBytes 1024) []
        (getUrlParam .latin1 (fun _ _ => ([], -1)) [ascii "id="]
          ⟨1, none, 0, .lwsCallbackHttp, 0⟩ [] (text "id") 1024) ∧
      ¬ReadsParam .latin1 [ascii "id=abcdefgh", ascii "id=7"] (text "id") (bufferBytes 6) []
        (getUrlParam .latin1 (fun _ _ => ([], 0)) [ascii "id=abcdefgh", ascii "id=7"]
          ⟨1, none, 0, .lwsCallbackHttp, 0⟩ [] (text "id") 6) := by
  have hreason : LwsCallbackReasons.lwsCallbackHttp = .lwsCallbackHttp ∨
      LwsCallbackReasons.lwsCallbackHttp = .lwsCallbackHttpBody := Or.inl rfl
  have hnul : '\x00' ∉ "id".toList := by decide
  have hkey : text "id" = utf16 "id".toList := rfl
  rw [hkey, readsParam_utf16_iff .latin1 _ [] [] hnul 1024 hreason,
    readsParam_utf16_iff .latin1 _ [ascii "id="] [] hnul 1024 hreason]
  refine ⟨?_, ?_, fun hreads => ?_⟩
  · rintro ⟨arg, v, hfirst, -⟩
    exact absurd hfirst.1.mem.1 (by simp)
  · rintro ⟨arg, v, ⟨hfirst, hsays⟩, hvalue, -⟩
    obtain rfl := List.mem_singleton.mp hfirst.mem.1
    refine hvalue (by decide) ?_
    have hname : ascii "id=" = utf8 "id".toList ++ [61] := by decide
    rw [says_utf16_iff, hname, List.append_cancel_left_eq, List.cons.injEq] at hsays
    exact hsays.2.symm
  · have hseven : Says (utf16 "id".toList) (ascii "id=7") (ascii "7") :=
      says_utf16_iff.mpr (by decide)
    obtain ⟨g, -, hg, hresult, -⟩ :=
      hreads.present ⟨ascii "7", ascii "id=7", by simp, hseven, by decide⟩
    have hfails : (getUrlParam .latin1 (fun _ _ => ([], 0)) [ascii "id=abcdefgh", ascii "id=7"]
        ⟨1, none, 0, .lwsCallbackHttp, 0⟩ [] (utf16 "id".toList) 6).map (·.result) =
        some false := by
      decide +kernel
    rw [hg, Option.map_some, hresult] at hfails
    cases hfails

end HttpLws
