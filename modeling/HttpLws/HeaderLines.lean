import HttpLws.RequestCalls

/-!
# What a client reads from the header block

In a buffer that is large enough, `SendResponse` prints the supplied headers
without looking at what is in them, and takes the length of a value in TCHARs. An
HTTP/1.x parser reads the supplied headers back exactly when the keys are tokens
and the values are printable ASCII.
-/

namespace HttpLws

open Unicode HeaderBlock

variable (lws : Lws)

/-- A header given to `SendResponse`. -/
inductive SuppliedHeader
  /-- An entry of `In_Custom_Headers`. -/
  | custom (key value : FString)
  /-- An entry of `In_Known_Headers`. -/
  | known (header : ELwsKnownHeaders) (value : FString)

/-- The value of a supplied header. -/
def SuppliedHeader.value : SuppliedHeader → FString
  | .custom _ value => value
  | .known _ value => value

/-- The supplied headers that have a non-empty value, custom ones first. -/
def suppliedHeaders (args : ResponseArgs) : List SuppliedHeader :=
  (args.inCustomHeaders.pairs.map (fun h => SuppliedHeader.custom h.1 h.2) ++
    args.inKnownHeaders.pairs.map (fun h => SuppliedHeader.known h.1 h.2)).filter (·.value ≠ [])

/-- The field that stands for a supplied header: under its own key or its token's
name, with the UTF-8 form of the whole value. -/
def IsSuppliedField : SuppliedHeader → Field → Prop
  | .custom key value, f => Encodes f.name key ∧ Encodes f.value value
  | .known header value, f =>
      f.name ++ ascii ":" = lws.lwsTokenToString (bpHeadersToLws header) ∧ Encodes f.value value

/-- The three headers that every response has. -/
def fixedFields (args : ResponseArgs) : List Field :=
  [⟨ascii "access-control-allow-origin", ascii "*"⟩,
    ⟨ascii "content-type", (contentTypeString args.inType).text⟩,
    ⟨ascii "content-length", decimal args.inResponse.len⟩]

/-- A parser reads the whole block as the status line, the fields of the status
call, the fixed headers, and one field for each supplied header. -/
def ReadsSupplied (args : ResponseArgs) (block : List UInt8) : Prop :=
  ∃ fs, List.Forall₂ (IsSuppliedField lws) (suppliedHeaders args) fs ∧
    parse block =
      some (lws.statusLine httpStatusOk, lws.statusFields ++ fixedFields args ++ fs)

/-- A value made of ASCII text without control characters other than HTAB, with no
white space at either end. -/
def PrintableValue (value : FString) : Prop :=
  (∀ u ∈ value, u.toNat < 0x80) ∧ IsFieldValue (narrow value)

/-- A key made of ASCII token characters. -/
def TokenKey (key : FString) : Prop := (∀ u ∈ key, u.toNat < 0x80) ∧ IsToken (narrow key)

/-- A header that can be printed as it is. -/
def SuppliedHeader.Printable : SuppliedHeader → Prop
  | .custom key value => TokenKey key ∧ PrintableValue value
  | .known _ value => PrintableValue value

instance (value : FString) : Decidable (PrintableValue value) :=
  decidable_of_iff (value.all (·.toNat < 0x80) = true ∧ IsFieldValue (narrow value))
    (by simp [PrintableValue])

instance (key : FString) : Decidable (TokenKey key) :=
  decidable_of_iff (key.all (·.toNat < 0x80) = true ∧ IsToken (narrow key)) (by simp [TokenKey])

instance : (h : SuppliedHeader) → Decidable h.Printable
  | .custom key value => inferInstanceAs (Decidable (TokenKey key ∧ PrintableValue value))
  | .known _ value => inferInstanceAs (Decidable (PrintableValue value))

/-- The line content that is printed for a supplied header. -/
def suppliedContent : SuppliedHeader → List UInt8
  | .custom key value => nameBytes key ++ 32 :: lws.copy (tcharToUtf8 value) value.len
  | .known header value =>
      lws.lwsTokenToString (bpHeadersToLws header) ++ 32 :: lws.copy (tcharToUtf8 value) value.len

/-- A value that is not empty has a length, and the other way round. -/
theorem len_pos_iff (value : FString) : value.len > 0 ↔ value ≠ [] := List.length_pos_iff

/-- The lines printed by a loop over headers that skips empty values. -/
theorem map_line_filterMap {α : Type} {call : α → Option HeaderCall}
    {supply : α → SuppliedHeader}
    (hcall : ∀ a, (call a).map lws.line =
      if (supply a).value ≠ [] then some (closed (suppliedContent lws (supply a))) else none)
    (hs : List α) :
    (hs.filterMap call).map lws.line =
      ((hs.map supply).filter (·.value ≠ [])).map fun h => closed (suppliedContent lws h) := by
  rw [List.map_filterMap]
  induction hs with
  | nil => simp
  | cons a hs ih =>
    by_cases hvalue : (supply a).value = []
    · rw [List.filterMap_cons_none (by rw [hcall, if_neg (not_not_intro hvalue)]), ih,
        List.map_cons, List.filter_cons_of_neg (by simpa using hvalue)]
    · rw [List.filterMap_cons_some (by rw [hcall, if_pos hvalue]), ih, List.map_cons,
        List.filter_cons_of_pos (by simpa using hvalue), List.map_cons]

/-- The line of a custom header. -/
theorem map_line_customHeaderCall (h : FString × FString) :
    (customHeaderCall h).map lws.line =
      if (SuppliedHeader.custom h.1 h.2).value ≠ [] then
        some (closed (suppliedContent lws (.custom h.1 h.2))) else none := by
  unfold customHeaderCall SuppliedHeader.value
  simp only [len_pos_iff]
  split_ifs <;> simp [Lws.line, suppliedContent, nameBytes]

/-- The line of a known header. -/
theorem map_line_knownHeaderCall (h : ELwsKnownHeaders × FString) :
    (knownHeaderCall h).map lws.line =
      if (SuppliedHeader.known h.1 h.2).value ≠ [] then
        some (closed (suppliedContent lws (.known h.1 h.2))) else none := by
  unfold knownHeaderCall SuppliedHeader.value
  simp only [len_pos_iff]
  split_ifs <;> simp [Lws.line, suppliedContent]

/-- The token of every known header has a proper name. -/
theorem lwsTokenToString_known (header : ELwsKnownHeaders) :
    ∃ name, lws.lwsTokenToString (bpHeadersToLws header) = name ++ [58] ∧ IsToken name := by
  have hmem : ∃ p ∈ responseTokenStrings, p.1 = bpHeadersToLws header := by
    cases header <;> decide
  have hnames : ∀ p ∈ responseTokenStrings,
      ascii p.2 = (ascii p.2).dropLast ++ [58] ∧ IsToken (ascii p.2).dropLast := by
    decide
  obtain ⟨p, hp, htoken⟩ := hmem
  refine ⟨(ascii p.2).dropLast, ?_, (hnames p hp).2⟩
  rw [← htoken, lws.tokenStrings p hp]
  exact (hnames p hp).1

/-- The digits of a length are a printed field value. -/
theorem isFieldValue_decimal (n : ℕ) : IsFieldValue (decimal n) := by
  have hdigit : ∀ b ∈ decimal n, 48 ≤ b.toNat ∧ b.toNat ≤ 57 := by
    intro b hb
    obtain ⟨c, hc, rfl⟩ := List.mem_map.mp hb
    have hd := Nat.isDigit_of_mem_toDigits (by decide) (by decide) hc
    simp only [Char.isDigit, Bool.and_eq_true, decide_eq_true_eq] at hd
    obtain ⟨hlo, hhi⟩ := hd
    have hlo' : 48 ≤ c.toNat := hlo
    have hhi' : c.toNat ≤ 57 := hhi
    rw [UInt8.toNat_ofNat']
    omega
  have hbytes : ∀ b : UInt8, 48 ≤ b.toNat ∧ b.toNat ≤ 57 →
      isFieldByte b = true ∧ isOws b = false := by
    intro b hb
    have h9 : b ≠ 9 := by rintro rfl; simp at hb
    have h32 : b ≠ 32 := by rintro rfl; simp at hb
    have h127 : b ≠ 127 := by rintro rfl; simp at hb
    have hle : (32 : UInt8) ≤ b := by rw [UInt8.le_iff_toNat_le]; simp; omega
    simp [isFieldByte, isOws, h9, h32, h127, hle]
  refine ⟨fun b hb => (hbytes b (hdigit b hb)).1, fun b hb => ?_, fun b hb => ?_⟩
  · exact (hbytes b (hdigit b (List.mem_of_head? hb))).2
  · exact (hbytes b (hdigit b (List.mem_of_getLast? hb))).2

/-- The fixed headers are proper fields. -/
theorem fixedFields_valid (args : ResponseArgs) :
    ∀ f ∈ fixedFields args, IsToken f.name ∧ IsFieldValue f.value := by
  have htype : IsFieldValue (contentTypeString args.inType).text := by
    cases args.inType <;> decide
  simp only [fixedFields, List.forall_mem_cons]
  refine ⟨⟨by decide, by decide⟩, ⟨by decide, htype⟩, ⟨by decide, isFieldValue_decimal _⟩, ?_⟩
  simp

/-- The status line is one line. -/
theorem lines_statusLine : lines (lws.statusLine httpStatusOk) = [lws.statusLine httpStatusOk] := by
  rw [lws.statusLine_ok]
  decide

/-- **The printed block**: the status line, the proper fields of the status call
and of the fixed headers, and one line for each supplied header. -/
theorem flatten_headerLines (args : ResponseArgs) :
    (headerLines lws args).flatten =
      print (lws.statusLine httpStatusOk)
        ((lws.statusFields ++ fixedFields args).map fieldContent ++
          (suppliedHeaders args).map (suppliedContent lws)) := by
  obtain ⟨horigin, htype, hlength⟩ := lws.lwsTokenToString_fixed
  have hstar : lws.copy (ascii "*" ++ [0]) 1 = ascii "*" :=
    lws.copy_append_of_length (ascii "*") [0]
  have htext : lws.copy ((contentTypeString args.inType).text ++ [0])
      (contentTypeString args.inType).lenght = (contentTypeString args.inType).text := by
    rw [contentTypeString_lenght]
    exact lws.copy_append_of_length _ [0]
  simp only [headerLines, headerCalls, List.map_append, List.map_cons, List.map_nil,
    map_line_filterMap lws (map_line_customHeaderCall lws),
    map_line_filterMap lws (map_line_knownHeaderCall lws), Lws.line, horigin, htype, hlength,
    hstar, htext]
  simp [print, fixedFields, fieldContent, suppliedHeaders, Function.comp_def]

/-- A string whose narrowed bytes are not zero has no zero unit. -/
theorem zero_not_mem_of_narrow {s : FString} (h : 0 ∉ narrow s) : 0 ∉ s := fun hmem =>
  h (List.mem_map.mpr ⟨0, hmem, by decide⟩)

/-- The name bytes of a token key are the key and a colon. -/
theorem nameBytes_of_tokenKey {key : FString} (h : TokenKey key) :
    nameBytes key = narrow key ++ [58] := by
  have hcolon : ∀ u ∈ colon, u.toNat < 0x80 ∧ u ≠ 0 := by
    rw [show colon = [58] by decide]
    simp
  have hascii : ∀ u ∈ key ++ colon, u.toNat < 0x80 := by
    rw [List.forall_mem_append]
    exact ⟨h.1, fun u hu => (hcolon u hu).1⟩
  have hzero : 0 ∉ key ++ colon := by
    rw [List.mem_append]
    rintro (hmem | hmem)
    · exact zero_not_mem_of_narrow (fun hz => absurd (h.2.2 0 hz) (by decide)) hmem
    · exact (hcolon 0 hmem).2 rfl
  rw [nameBytes, takeWhile_tcharToUtf8, cString_of_zero_not_mem hzero,
    utf8_decode16_ascii hascii, narrow, List.map_append]
  congr 1

/-- Copying a printable value by its length in TCHARs gives its bytes. -/
theorem copy_of_printableValue {value : FString} (h : PrintableValue value) :
    lws.copy (tcharToUtf8 value) value.len = narrow value := by
  have hzero : 0 ∉ value :=
    zero_not_mem_of_narrow fun hz => absurd (h.2.1 0 hz) (by decide)
  have hlen : value.len = (narrow value).length := by simp [FString.len, narrow]
  rw [tcharToUtf8_ascii h.1 hzero, hlen, Lws.copy_append_of_length]

/-- Under a token name, a value is read back whole exactly when it is printable:
the copied bytes are no more than its TCHARs, so its UTF-8 form must be as short. -/
theorem copied_value_read_iff {name : List UInt8} (hname : IsToken name) (value : FString) :
    (∃ f : Field, f.name = name ∧ Encodes f.value value ∧
      lines (fieldContent ⟨name, lws.copy (tcharToUtf8 value) value.len⟩) =
        [fieldContent ⟨name, lws.copy (tcharToUtf8 value) value.len⟩] ∧
      parseField (fieldContent ⟨name, lws.copy (tcharToUtf8 value) value.len⟩) = some f) ↔
      PrintableValue value := by
  constructor
  · rintro ⟨f, _, hencodes, _, hparse⟩
    obtain ⟨_, hproper, hlen⟩ := parseField_fieldContent_eq_some hname hparse
    rw [Lws.length_copy] at hlen
    obtain ⟨hascii, hnarrow⟩ := hencodes.ascii_of_length_le hlen
    rw [hnarrow] at hproper
    exact ⟨hascii, hproper⟩
  · intro hvalue
    rw [copy_of_printableValue lws hvalue]
    obtain ⟨hline, hparse⟩ :=
      parseField_fieldContent (f := ⟨name, narrow value⟩) hname hvalue.2
    exact ⟨⟨name, narrow value⟩, rfl, encodes_narrow hvalue.1, hline, hparse⟩

/-- The content of a custom header with a token key. -/
theorem suppliedContent_custom {key : FString} (hkey : TokenKey key) (value : FString) :
    suppliedContent lws (.custom key value) =
      fieldContent ⟨narrow key, lws.copy (tcharToUtf8 value) value.len⟩ := by
  rw [suppliedContent, nameBytes_of_tokenKey hkey, fieldContent, List.append_assoc,
    List.singleton_append]

/-- A custom header is read back under its key with its value exactly when the key
is a token and the value is printable. -/
theorem customContent_read_iff (key value : FString) :
    (∃ f, IsSuppliedField lws (.custom key value) f ∧
      lines (suppliedContent lws (.custom key value)) =
        [suppliedContent lws (.custom key value)] ∧
      parseField (suppliedContent lws (.custom key value)) = some f) ↔
      TokenKey key ∧ PrintableValue value := by
  constructor
  · rintro ⟨f, ⟨hname, hvalue⟩, hline, hparse⟩
    obtain ⟨_, _, htoken, _, _⟩ := parseField_eq_some hparse
    obtain ⟨hascii, hnarrow⟩ := hname.ascii_of_bytes fun b hb => isTchar_lt (htoken.2 b hb)
    have hkey : TokenKey key := ⟨hascii, hnarrow ▸ htoken⟩
    rw [suppliedContent_custom lws hkey] at hline hparse
    exact ⟨hkey, (copied_value_read_iff lws hkey.2 value).mp ⟨f, hnarrow, hvalue, hline, hparse⟩⟩
  · rintro ⟨hkey, hvalue⟩
    obtain ⟨f, hname, hencodes, hline, hparse⟩ :=
      (copied_value_read_iff lws hkey.2 value).mpr hvalue
    rw [suppliedContent_custom lws hkey]
    refine ⟨f, ⟨?_, hencodes⟩, hline, hparse⟩
    rw [hname]
    exact encodes_narrow hkey.1

/-- A known header is read back under its token's name with its value exactly when
the value is printable. -/
theorem knownContent_read_iff (header : ELwsKnownHeaders) (value : FString) :
    (∃ f, IsSuppliedField lws (.known header value) f ∧
      lines (suppliedContent lws (.known header value)) =
        [suppliedContent lws (.known header value)] ∧
      parseField (suppliedContent lws (.known header value)) = some f) ↔
      PrintableValue value := by
  obtain ⟨name, htoken, hname⟩ := lwsTokenToString_known lws header
  have hcontent : suppliedContent lws (.known header value) =
      fieldContent ⟨name, lws.copy (tcharToUtf8 value) value.len⟩ := by
    rw [suppliedContent, htoken, fieldContent, List.append_assoc, List.singleton_append]
  have hcolon : ascii ":" = [58] := by decide
  rw [← copied_value_read_iff lws hname value, hcontent]
  simp only [IsSuppliedField, htoken, hcolon, List.append_left_inj, and_assoc]

/-- A supplied header is read back exactly when it can be printed as it is. -/
theorem suppliedContent_read_iff (h : SuppliedHeader) :
    (∃ f, IsSuppliedField lws h f ∧ lines (suppliedContent lws h) = [suppliedContent lws h] ∧
      parseField (suppliedContent lws h) = some f) ↔ h.Printable := by
  cases h with
  | custom key value => exact customContent_read_iff lws key value
  | known header value => exact knownContent_read_iff lws header value

/-- A parser reads the supplied headers from the printed block exactly when every one
of them can be printed as it is. -/
theorem readsSupplied_headerLines_iff (args : ResponseArgs) :
    ReadsSupplied lws args (headerLines lws args).flatten ↔
      ∀ h ∈ suppliedHeaders args, h.Printable := by
  have hstart : lines (lws.statusLine httpStatusOk) = [lws.statusLine httpStatusOk] := by
    rw [lws.statusLine_ok]
    decide
  have hfixed : ∀ f ∈ lws.statusFields ++ fixedFields args,
      IsToken f.name ∧ IsFieldValue f.value :=
    List.forall_mem_append.mpr ⟨lws.statusFields_valid, fixedFields_valid args⟩
  simp only [ReadsSupplied, flatten_headerLines, exists_parse_print_iff hstart hfixed,
    suppliedContent_read_iff]

/-- Where the whole header block fits, it is what the first write sends. -/
theorem exists_written_block_iff (self : ULwsRequest) {payloadSize : ℤ} {args : ResponseArgs}
    (hfit : ((headerLines lws args).flatten.length : ℤ) ≤ payloadSize - lwsPre)
    (P : List UInt8 → Prop) :
    (∃ buffer len block,
      writes .lwsWriteHttpHeaders (sendResponseFrom lws self payloadSize args).calls =
        [(buffer, len)] ∧
      writtenBytes buffer len = some block ∧ P block) ↔ P (headerLines lws args).flatten := by
  rw [writes_of_fit lws self hfit]
  constructor
  · rintro ⟨buffer, len, block, hwrite, hblock, hP⟩
    obtain ⟨rfl, rfl⟩ := Prod.mk.inj (List.singleton_injective hwrite)
    rw [writtenBytes, if_pos le_rfl, List.take_length, Option.some.injEq] at hblock
    subst hblock
    exact hP
  · intro hP
    exact ⟨_, _, _, rfl, by simp [writtenBytes], hP⟩

/-- **The headers that are read back.** Where the whole header block fits, a parser
reads the supplied headers from it, each with its whole value, exactly when every
key is a token and every value is printable ASCII. -/
theorem sendResponse_read_iff (self : ULwsRequest) (payloadSize : ℤ) (args : ResponseArgs)
    (hfit : ((headerLines lws args).flatten.length : ℤ) ≤ payloadSize - lwsPre) :
    (∃ buffer len block,
      writes .lwsWriteHttpHeaders (sendResponseFrom lws self payloadSize args).calls =
        [(buffer, len)] ∧
      writtenBytes buffer len = some block ∧ ReadsSupplied lws args block) ↔
      ∀ h ∈ suppliedHeaders args, h.Printable := by
  rw [exists_written_block_iff lws self hfit, readsSupplied_headerLines_iff]

/-- An answer with one custom header. -/
def oneHeader (key value : String) : ResponseArgs :=
  { ResponseArgs.plainText (text "ok") with
    inCustomHeaders := KeyedMap.empty.add (text key) (text value) }

/-- With room for 4096 bytes, the header `x-request-id: 7` is read back. -/
theorem request_id_read :
    ∃ buffer len block,
      writes .lwsWriteHttpHeaders (sendResponseFrom Lws.plain
        (.newObject ⟨1, none, 0, .lwsCallbackHttp, 0⟩) 4096 (oneHeader "x-request-id" "7")).calls =
        [(buffer, len)] ∧
      writtenBytes buffer len = some block ∧
        ReadsSupplied Lws.plain (oneHeader "x-request-id" "7") block :=
  (sendResponse_read_iff Lws.plain _ 4096 (oneHeader "x-request-id" "7")
    (by decide +kernel)).mpr (by decide)

/-- Although the block fits, the value `é` is not read back, since one of its two
bytes is copied, and neither is `7 CR LF set-cookie: a=1`, since the line end in it
starts a further header of the response. -/
theorem accented_and_broken_values_not_read :
    (((headerLines Lws.plain (oneHeader "x-name" "é")).flatten.length : ℤ) ≤ 4096 - lwsPre ∧
      ¬∃ buffer len block,
        writes .lwsWriteHttpHeaders (sendResponseFrom Lws.plain
          (.newObject ⟨1, none, 0, .lwsCallbackHttp, 0⟩) 4096 (oneHeader "x-name" "é")).calls =
          [(buffer, len)] ∧
        writtenBytes buffer len = some block ∧
          ReadsSupplied Lws.plain (oneHeader "x-name" "é") block) ∧
    ((headerLines Lws.plain (oneHeader "x-request-id" "7\r\nset-cookie: a=1")).flatten.length : ℤ)
        ≤ 4096 - lwsPre ∧
      ¬∃ buffer len block,
        writes .lwsWriteHttpHeaders (sendResponseFrom Lws.plain
          (.newObject ⟨1, none, 0, .lwsCallbackHttp, 0⟩) 4096
          (oneHeader "x-request-id" "7\r\nset-cookie: a=1")).calls = [(buffer, len)] ∧
        writtenBytes buffer len = some block ∧
          ReadsSupplied Lws.plain (oneHeader "x-request-id" "7\r\nset-cookie: a=1") block := by
  have haccented : ((headerLines Lws.plain (oneHeader "x-name" "é")).flatten.length : ℤ) ≤
      4096 - lwsPre := by
    decide +kernel
  have hbroken : ((headerLines Lws.plain
      (oneHeader "x-request-id" "7\r\nset-cookie: a=1")).flatten.length : ℤ) ≤
      4096 - lwsPre := by
    decide +kernel
  refine ⟨⟨haccented, ?_⟩, hbroken, ?_⟩
  · rw [exists_written_block_iff Lws.plain _ haccented, readsSupplied_headerLines_iff]
    decide
  · rw [exists_written_block_iff Lws.plain _ hbroken, readsSupplied_headerLines_iff]
    decide

end HttpLws
