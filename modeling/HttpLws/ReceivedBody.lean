import HttpLws.Body
import HttpLws.Thread

/-!
# A body that is read and sent back

The chunks of a body arrive in callbacks of their own, and `GetBody` widens the
bytes of each. Reading therefore never depends on where the network splits the
body, but the string it gives is the received text only where every character is
a single byte.
-/

namespace HttpLws

open Unicode

variable (lws : Lws) (conv : AnsiConversion)

/-- The callbacks for the chunks of a body. `behind` is the memory behind a chunk. -/
def bodyEvents (wsi user : ℕ) (behind : List UInt8) (chunks : List (List UInt8)) :
    List FLwsParams :=
  chunks.map fun chunk => ⟨wsi, some (chunk ++ behind), user, .lwsCallbackHttpBody, chunk.length⟩

/-- What a handler reads with `GetBody` from the object it was given. -/
def readBody : Option Notified → Option FString
  | some (.body info) => (info.getBody conv []).map Prod.snd
  | _ => some []

/-- The strings that are read in a sequence of callbacks, concatenated. -/
def receiveBody (owner : Owner) : List FLwsParams → Option FString
  | [] => some []
  | params :: rest =>
      (callbackHttp lws conv (some owner) params ⟨[], []⟩).bind fun r =>
        (readBody conv r.notified).bind fun s => (receiveBody owner rest).map (s ++ ·)

/-- The received string is the text, and a response with that string as its body
writes the bytes of the text. -/
def EchoesText (self : ULwsRequest) (args : ResponseArgs) (t : List Char)
    (received : Option FString) : Prop :=
  ∃ s, received = some s ∧ s = utf16 t ∧
    ∃ buffer len,
      writes .lwsWriteHttp (sendResponse lws self { args with inResponse := s }).calls =
        [(buffer, len)] ∧
      writtenBytes buffer len = some (utf8 t)

/-- One body callback and the reading of its object convert the counted bytes. -/
theorem receiveBody_cons (owner : Owner) (wsi user : ℕ) (behind chunk : List UInt8)
    (rest : List FLwsParams) :
    receiveBody lws conv owner
        (⟨wsi, some (chunk ++ behind), user, .lwsCallbackHttpBody, chunk.length⟩ :: rest) =
      (FString.appendChars conv [] (chunk ++ behind) (toInt32 chunk.length)).bind fun s =>
        (receiveBody lws conv owner rest).map (s ++ ·) := by
  cases happend : FString.appendChars conv [] (chunk ++ behind) (toInt32 chunk.length) <;>
    simp [receiveBody, callbackHttp, readBody, ULwsInfos.newObject, ULwsInfos.getBody, happend]

/-- Chunks with lengths that fit an `int32` are read one TCHAR for each byte,
wherever the body was split. -/
theorem receiveBody_bodyEvents (owner : Owner) (wsi user : ℕ) (behind : List UInt8)
    {chunks : List (List UInt8)} (hlen : ∀ chunk ∈ chunks, chunk.length < 2 ^ 31) :
    receiveBody lws conv owner (bodyEvents wsi user behind chunks) =
      some (chunks.flatten.map conv.widen) := by
  induction chunks with
  | nil => simp [bodyEvents, receiveBody]
  | cons chunk chunks ih =>
    rw [List.forall_mem_cons] at hlen
    have hrest := ih hlen.2
    rw [bodyEvents] at hrest ⊢
    rw [List.map_cons, receiveBody_cons, toInt32_of_lt hlen.1, appendChars_append, hrest]
    simp

/-- What is read is never longer than the body, and as long only when the length
of every chunk fits an `int32`. -/
theorem length_receiveBody {owner : Owner} {wsi user : ℕ} {behind : List UInt8}
    {chunks : List (List UInt8)} {s : FString}
    (h : receiveBody lws conv owner (bodyEvents wsi user behind chunks) = some s) :
    s.length ≤ chunks.flatten.length ∧
      (s.length = chunks.flatten.length → ∀ chunk ∈ chunks, chunk.length < 2 ^ 31) := by
  induction chunks generalizing s with
  | nil =>
    rw [bodyEvents, List.map_nil, receiveBody, Option.some.injEq] at h
    subst h
    simp
  | cons chunk chunks ih =>
    rw [bodyEvents, List.map_cons, receiveBody_cons] at h
    obtain ⟨first, hfirst, h⟩ := Option.bind_eq_some_iff.mp h
    obtain ⟨rest, hrest, rfl⟩ := Option.map_eq_some_iff.mp h
    obtain ⟨hle, heq⟩ := ih hrest
    have hcount := length_of_appendChars hfirst
    have hshort : 2 ^ 31 ≤ chunk.length → toInt32 chunk.length < chunk.length := toInt32_lt
    have hfit : chunk.length < 2 ^ 31 → toInt32 chunk.length = chunk.length := toInt32_of_lt
    rw [List.length_nil] at hcount
    simp only [List.length_append, List.flatten_cons, List.forall_mem_cons]
    refine ⟨by omega, fun htotal => ⟨by omega, heq (by omega)⟩⟩

/-- Widened bytes are the UTF-16 form of an ASCII text. -/
theorem map_widen_utf8 {t : List Char} (h : ∀ c ∈ t, IsAscii c) :
    (utf8 t).map conv.widen = utf16 t := by
  rw [utf8_ascii h, utf16_ascii h, List.map_map]
  apply List.map_congr_left
  intro c hc
  have ha := h c hc
  unfold IsAscii at ha
  have hnat : (UInt8.ofNat c.toNat).toNat = c.toNat := by
    rw [UInt8.toNat_ofNat']
    omega
  rw [Function.comp_apply, conv.widen_ascii (by omega), hnat]

/-- **Reading a body back.** However the bytes of a text are split into chunks, the
strings read from the chunks are the text, and sending them back writes the text's
bytes, exactly when the text is ASCII without a NUL before its last character and
no chunk is longer than an `int32` can say. -/
theorem received_body_echoed_iff (owner : Owner) (wsi user : ℕ) (behind : List UInt8)
    (self : ULwsRequest) (args : ResponseArgs) (t : List Char) (chunks : List (List UInt8))
    (hsplit : chunks.flatten = utf8 t) :
    EchoesText lws self args t
        (receiveBody lws conv owner (bodyEvents wsi user behind chunks)) ↔
      (∀ c ∈ t, IsAscii c) ∧ '\x00' ∉ t.dropLast ∧
        ∀ chunk ∈ chunks, chunk.length < 2 ^ 31 := by
  have hwrites := writes_sendResponseFrom lws self
    (calculcatePayloadSize lws { args with inResponse := utf16 t })
    { args with inResponse := utf16 t } .lwsWriteHttp
  constructor
  · rintro ⟨s, hreceived, rfl, buffer, len, hbody, hwritten⟩
    obtain ⟨hle, hlen⟩ := length_receiveBody lws conv hreceived
    rw [sendResponse, hwrites] at hbody
    obtain ⟨rfl, rfl⟩ := Prod.mk.inj (List.singleton_injective hbody)
    obtain ⟨hascii, hnul⟩ := (writtenBytes_utf16_iff t).mp hwritten
    refine ⟨hascii, hnul, hlen ?_⟩
    rw [hsplit]
    exact (utf16_length_eq_iff t).mpr hascii
  · rintro ⟨hascii, hnul, hlen⟩
    refine ⟨utf16 t, ?_, rfl, _, _, hwrites, ?_⟩
    · rw [receiveBody_bodyEvents lws conv owner wsi user behind hlen, hsplit,
        map_widen_utf8 conv hascii]
    · exact (writtenBytes_utf16_iff t).mpr ⟨hascii, hnul⟩

/-- The text `ok` in two chunks is read and sent back. -/
theorem ascii_body_echoed :
    EchoesText Lws.plain (.newObject ⟨1, none, 0, .lwsCallbackHttp, 0⟩) (.plainText []) ['o', 'k']
      (receiveBody Lws.plain .latin1 ⟨⟨ascii "api", 3⟩⟩
        (bodyEvents 1 0 [] [[0x6F], [0x6B]])) :=
  (received_body_echoed_iff Lws.plain .latin1 ⟨⟨ascii "api", 3⟩⟩ 1 0 [] _ _ ['o', 'k']
    [[0x6F], [0x6B]] (by decide)).mpr ⟨by simp [IsAscii], by decide, by decide⟩

/-- The text `é`, split inside its character, is read as two other characters. -/
theorem accented_body_not_echoed :
    ([[0xC3], [0xA9]] : List (List UInt8)).flatten = utf8 ['é'] ∧
      receiveBody Lws.plain .latin1 ⟨⟨ascii "api", 3⟩⟩ (bodyEvents 1 0 [] [[0xC3], [0xA9]]) =
        some (text "Ã©") ∧
      ¬EchoesText Lws.plain (.newObject ⟨1, none, 0, .lwsCallbackHttp, 0⟩) (.plainText []) ['é']
        (receiveBody Lws.plain .latin1 ⟨⟨ascii "api", 3⟩⟩
          (bodyEvents 1 0 [] [[0xC3], [0xA9]])) := by
  refine ⟨by decide, by decide, ?_⟩
  rintro ⟨s, hreceived, rfl, -⟩
  exact absurd hreceived (by decide)

end HttpLws
