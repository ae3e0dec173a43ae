import HttpLws.RequestCalls

/-!
# The declared and the written body

`SendResponse` declares `In_Response.Len()` as the content length and writes that
many bytes of the converted buffer. The two numbers agree by construction; the
bytes are the whole UTF-8 text only where a TCHAR is a byte, and only as far as
the conversion, which stops at a NUL, reaches.
-/

namespace HttpLws

open Unicode

variable (lws : Lws)

/-- The content length that a header call declares. -/
def HeaderCall.declaredLength : HeaderCall → Option ℕ
  | .lwsAddHttpHeaderContentLength n => some n
  | _ => none

/-- The content lengths declared by the calls of a response. -/
def declaredLengths (calls : List LwsCall) : List ℕ :=
  calls.filterMap fun
    | .header call _ => call.declaredLength
    | _ => none

/-- One content length is declared, one body is written with exactly that length,
and its bytes are the UTF-8 encoding of the text, read from within the buffer. -/
def DeclaresWholeBody (t : List Char) (calls : List LwsCall) : Prop :=
  ∃ n buffer, declaredLengths calls = [n] ∧ writes .lwsWriteHttp calls = [(buffer, n)] ∧
    writtenBytes buffer n = some (utf8 t)

/-- The lengths declared by recorded header calls are those of the calls. -/
theorem declaredLengths_zipWith {calls : List HeaderCall} {flags : List Bool}
    (hlen : flags.length = calls.length) :
    declaredLengths (List.zipWith .header calls flags) =
      calls.filterMap HeaderCall.declaredLength := by
  induction calls generalizing flags with
  | nil => simp [declaredLengths]
  | cons call calls ih =>
    cases flags with
    | nil => simp at hlen
    | cons flag flags =>
      have hrest := ih (by simpa using hlen)
      simp only [declaredLengths] at hrest ⊢
      rw [List.zipWith_cons_cons]
      cases hcall : call.declaredLength <;> simp [hcall, hrest]

/-- A loop over headers declares no content length. -/
theorem filterMap_declaredLength {α : Type} {call : α → Option HeaderCall}
    (hcall : ∀ h c, call h = some c → c.declaredLength = none) (hs : List α) :
    (hs.filterMap call).filterMap HeaderCall.declaredLength = [] := by
  rw [List.filterMap_eq_nil_iff]
  intro c hmem
  obtain ⟨h, _, hc⟩ := List.mem_filterMap.mp hmem
  exact hcall h c hc

/-- A response has one content-length call. -/
theorem declaredLength_headerCalls (args : ResponseArgs) :
    (headerCalls args).filterMap HeaderCall.declaredLength = [args.inResponse.len] := by
  have hcustom : ∀ h c, customHeaderCall h = some c → c.declaredLength = none := by
    intro h c hc
    unfold customHeaderCall at hc
    split_ifs at hc
    obtain rfl := Option.some.inj hc
    simp only [HeaderCall.declaredLength]
  have hknown : ∀ h c, knownHeaderCall h = some c → c.declaredLength = none := by
    intro h c hc
    unfold knownHeaderCall at hc
    split_ifs at hc
    obtain rfl := Option.some.inj hc
    simp only [HeaderCall.declaredLength]
  simp only [headerCalls, List.filterMap_append, filterMap_declaredLength hcustom,
    filterMap_declaredLength hknown, List.filterMap_cons, List.filterMap_nil,
    HeaderCall.declaredLength, List.append_nil]

/-- `SendResponse` declares the number of TCHARs. -/
theorem declaredLengths_sendResponseFrom (self : ULwsRequest) (payloadSize : ℤ)
    (args : ResponseArgs) :
    declaredLengths (sendResponseFrom lws self payloadSize args).calls =
      [args.inResponse.len] := by
  have hzip := declaredLengths_zipWith (length_emitted_flags lws payloadSize args)
  rw [declaredLength_headerCalls] at hzip
  rw [sendResponseFrom_calls]
  simp only [declaredLengths] at hzip ⊢
  rw [List.filterMap_append, hzip]
  rfl

/-- The converted buffer of a text: its UTF-8 form up to the first NUL. -/
theorem tcharToUtf8_utf16 (t : List Char) :
    tcharToUtf8 (utf16 t) = utf8 (t.takeWhile (· ≠ '\x00')) ++ [0] := by
  rw [tcharToUtf8, FString.cString, takeWhile_utf16, decode16_utf16]

/-- An ASCII text has as many characters as units. -/
theorem length_utf16_ascii {t : List Char} (h : ∀ c ∈ t, IsAscii c) :
    (utf16 t).length = t.length := by
  simp [utf16_ascii h]

/-- An ASCII text has as many characters as bytes. -/
theorem length_utf8_ascii {t : List Char} (h : ∀ c ∈ t, IsAscii c) :
    (utf8 t).length = t.length := by
  simp [utf8_ascii h]

/-- The converted buffer of a text without NUL before its last character: a NUL at the
end is the terminator of the buffer. -/
theorem tcharToUtf8_utf16_of_not_mem {t : List Char} (hnul : '\x00' ∉ t.dropLast) :
    ∃ rest, tcharToUtf8 (utf16 t) = utf8 t ++ rest := by
  rw [tcharToUtf8_utf16]
  by_cases hmem : '\x00' ∈ t
  · have hlast := Terminator.dropLast_append_of_mem hmem hnul
    refine ⟨[], ?_⟩
    nth_rewrite 1 [← hlast]
    nth_rewrite 2 [← hlast]
    rw [Terminator.takeWhile_append_cons hnul, utf8_append, List.append_nil]
    rfl
  · exact ⟨[0], by rw [Terminator.takeWhile_eq_self hmem]⟩

/-- As many bytes of the converted buffer as the text has units are the whole
encoding exactly for ASCII texts with no NUL before their last character. -/
theorem writtenBytes_utf16_iff (t : List Char) :
    writtenBytes (tcharToUtf8 (utf16 t)) (utf16 t).length = some (utf8 t) ↔
      (∀ c ∈ t, IsAscii c) ∧ '\x00' ∉ t.dropLast := by
  unfold writtenBytes
  constructor
  · intro h
    split_ifs at h with hfits
    have hbytes := Option.some.inj h
    have hlength : (utf16 t).length = (utf8 t).length := by
      rw [← hbytes, List.length_take, Nat.min_eq_left hfits]
    have hascii := (utf16_length_eq_iff t).mp hlength
    have hprefix : ∀ c ∈ t.takeWhile (· ≠ '\x00'), IsAscii c := fun c hc =>
      hascii c ((List.takeWhile_sublist _).subset hc)
    -- The conversion reaches all but the last character, so no earlier one is NUL.
    rw [tcharToUtf8_utf16, length_utf16_ascii hascii, List.length_append,
      length_utf8_ascii hprefix, List.length_singleton] at hfits
    exact ⟨hascii, Terminator.not_mem_dropLast_of_length_le hfits⟩
  · rintro ⟨hascii, hnul⟩
    obtain ⟨rest, hrest⟩ := tcharToUtf8_utf16_of_not_mem hnul
    rw [length_utf16_ascii hascii, ← length_utf8_ascii hascii, hrest, if_pos (by simp)]
    simp

/-- **The declared and the written length.** One content length is declared and
one body of that length is written, whole, exactly for ASCII bodies in which no
NUL stands before the last character. -/
theorem sendResponse_declares_whole_body_iff (self : ULwsRequest) (payloadSize : ℤ)
    (args : ResponseArgs) (t : List Char) :
    DeclaresWholeBody t
        (sendResponseFrom lws self payloadSize { args with inResponse := utf16 t }).calls ↔
      (∀ c ∈ t, IsAscii c) ∧ '\x00' ∉ t.dropLast := by
  rw [← writtenBytes_utf16_iff]
  simp only [DeclaresWholeBody, declaredLengths_sendResponseFrom, writes_sendResponseFrom,
    FString.len]
  constructor
  · rintro ⟨n, buffer, hdeclared, hbody, hwritten⟩
    obtain rfl := List.singleton_injective hdeclared
    obtain ⟨rfl, _⟩ := Prod.mk.inj (List.singleton_injective hbody)
    exact hwritten
  · intro hwritten
    exact ⟨_, _, rfl, rfl, hwritten⟩

/-- For the body `é` one byte is declared and written, the first of its two. -/
theorem accented_body_truncated :
    ¬DeclaresWholeBody ['é'] (sendResponse Lws.plain (.newObject ⟨1, none, 0,
        .lwsCallbackHttp, 0⟩) (.plainText (text "é"))).calls := by
  rintro ⟨n, buffer, hdeclared, hbody, hwritten⟩
  rw [sendResponse, declaredLengths_sendResponseFrom] at hdeclared
  rw [sendResponse, writes_sendResponseFrom] at hbody
  obtain rfl := List.singleton_injective hdeclared
  obtain ⟨rfl, _⟩ := Prod.mk.inj (List.singleton_injective hbody)
  exact absurd hwritten (by decide)

end HttpLws
