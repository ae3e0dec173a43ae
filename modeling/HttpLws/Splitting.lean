import HttpLws.Readable

/-!
# Answers inside a header value

`SendResponse` prints the value of a header without looking for line ends in it. So a
value can end the header block, supply the body that the content-length announces, and
go on with messages of its own. A client takes these for what the server answers next.
-/

namespace HttpLws

open Unicode HeaderBlock MessageStream

variable (lws : Lws)

/-- A custom header whose value goes on behind the end of the header block. -/
structure SplittingHeader where
  /-- The key. -/
  key : FString
  /-- What a client takes for the value. -/
  value : List UInt8
  /-- What it takes for the body of the answer. -/
  body : List UInt8
  /-- What it takes for further answers. -/
  pieces : List (List UInt8)
  /-- These answers. -/
  forged : List Message
  /-- The key is a token. -/
  token : TokenKey key
  /-- The key frames no message. -/
  unframed : (narrow key).map lowerByte ≠ ascii "content-length" ∧
    (narrow key).map lowerByte ≠ ascii "transfer-encoding"
  /-- The value can be printed. -/
  proper : IsFieldValue value
  /-- All of it is ASCII, without NUL. -/
  isAscii : ∀ b ∈ value ++ body ++ pieces.flatten, b ≠ 0 ∧ b.toNat < 0x80
  /-- Each piece delimits its answer. -/
  delimits : List.Forall₂ (Delimits responseLength) pieces forged

namespace SplittingHeader

variable (h : SplittingHeader)

/-- The bytes of the whole value. -/
def bytes : List UInt8 := h.value ++ [13, 10, 13, 10] ++ (h.body ++ h.pieces.flatten)

/-- The header that is supplied. -/
def supplied : SuppliedHeader := .custom h.key (h.bytes.map fun b => UInt16.ofNat b.toNat)

/-- The head that a client reads up to the end that the value makes. -/
def fields (args : ResponseArgs) (before : List SuppliedHeader) : List Field :=
  lws.statusFields ++ fixedFields args ++
    (before.map (suppliedField lws) ++ [⟨narrow h.key, h.value⟩])

/-- The bytes of the value are ASCII. -/
theorem bytes_ascii : ∀ b ∈ h.bytes, b ≠ 0 ∧ b.toNat < 0x80 := by
  have hall := h.isAscii
  simp only [bytes, List.forall_mem_append] at hall ⊢
  exact ⟨⟨hall.1.1, by simp⟩, hall.1.2, hall.2⟩

/-- The value is copied as it is. -/
theorem copy_supplied :
    lws.copy (tcharToUtf8 h.supplied.value) h.supplied.value.len = h.bytes := by
  have hunit : ∀ b ∈ h.bytes, (UInt16.ofNat b.toNat).toNat = b.toNat := by
    intro b hb
    have hlt := (h.bytes_ascii b hb).2
    rw [UInt16.toNat_ofNat']
    omega
  have hascii : ∀ u ∈ h.supplied.value, u.toNat < 0x80 := by
    intro u hu
    obtain ⟨b, hb, rfl⟩ := List.mem_map.mp hu
    rw [hunit b hb]
    exact (h.bytes_ascii b hb).2
  have hzero : 0 ∉ h.supplied.value := by
    intro hmem
    obtain ⟨b, hb, hnul⟩ := List.mem_map.mp hmem
    have hnat := congrArg UInt16.toNat hnul
    rw [hunit b hb] at hnat
    exact (h.bytes_ascii b hb).1 (UInt8.toNat_inj.mp hnat)
  have hnarrow : narrow h.supplied.value = h.bytes := by
    rw [narrow, supplied, SuppliedHeader.value, List.map_map]
    conv_rhs => rw [← List.map_id h.bytes]
    apply List.map_congr_left
    intro b hb
    rw [Function.comp_apply, hunit b hb, UInt8.ofNat_toNat, id]
  have hlen : h.supplied.value.len = h.bytes.length := by
    rw [supplied, SuppliedHeader.value, FString.len, List.length_map]
  rw [tcharToUtf8_ascii hascii hzero, hnarrow, hlen, Lws.copy_append_of_length]

/-- Its line is the line of the field that a client reads, the blank line, the body and
the further answers. -/
theorem closed_suppliedContent :
    closed (suppliedContent lws h.supplied) =
      closed (fieldContent ⟨narrow h.key, h.value⟩) ++
        ([13, 10] ++ (h.body ++ (h.pieces.flatten ++ [13, 10]))) := by
  have hcontent := suppliedContent_custom lws h.token (h.bytes.map fun b => UInt16.ofNat b.toNat)
  have hcopy := h.copy_supplied lws
  rw [supplied, SuppliedHeader.value] at hcopy
  rw [supplied, hcontent, hcopy, fieldContent, fieldContent, bytes, closed, closed]
  simp only [List.append_assoc, List.cons_append, List.nil_append]

/-- The fields up to the end that the value makes are proper fields, and none of those
behind the fixed ones frames a message. -/
theorem fields_valid {before : List SuppliedHeader} (args : ResponseArgs)
    (hprint : ∀ s ∈ before, s.Printable)
    (hplain : ∀ s ∈ before, headerName lws s ≠ ascii "content-length" ∧
      headerName lws s ≠ ascii "transfer-encoding") :
    (∀ f ∈ h.fields lws args before, IsToken f.name ∧ IsFieldValue f.value) ∧
      ∀ f ∈ before.map (suppliedField lws) ++ [⟨narrow h.key, h.value⟩],
        f.name.map lowerByte ≠ ascii "content-length" ∧
          f.name.map lowerByte ≠ ascii "transfer-encoding" := by
  have hsupplied : ∀ s ∈ before, IsToken (suppliedField lws s).name ∧
      IsFieldValue (suppliedField lws s).value := by
    intro s hs
    obtain ⟨-, hname, hvalue, -⟩ := suppliedField_of_printable lws (hprint s hs)
    exact ⟨hname, hvalue⟩
  have hnames : ∀ s ∈ before, (suppliedField lws s).name.map lowerByte = headerName lws s :=
    fun s hs => (suppliedField_of_printable lws (hprint s hs)).2.2.2.1
  constructor
  · simp only [fields, List.forall_mem_append, List.forall_mem_map, List.forall_mem_singleton]
    exact ⟨⟨lws.statusFields_valid, fixedFields_valid args⟩, hsupplied, h.token.2, h.proper⟩
  · simp only [List.forall_mem_append, List.forall_mem_map, List.forall_mem_singleton]
    refine ⟨fun s hs => ?_, h.unframed⟩
    rw [hnames s hs]
    exact hplain s hs

/-- **Forged answers.** Whatever messages the value of a custom header brings behind a line
end and a body of the announced length, a client that takes messages from the connection
gets the answer cut off there, and then exactly these messages. -/
theorem client_takes_forged (hstatus : StatusUnframed lws) (self : ULwsRequest)
    (hreason : self.params.reason = .lwsCallbackHttp) (dummy : List UInt8) {args : ResponseArgs}
    {before behind : List SuppliedHeader}
    (hsupplied : suppliedHeaders args = before ++ h.supplied :: behind)
    (hprint : ∀ s ∈ before, s.Printable)
    (hplain : ∀ s ∈ before, headerName lws s ≠ ascii "content-length" ∧
      headerName lws s ≠ ascii "transfer-encoding")
    (hbody : h.body.length = args.inResponse.len) (hcovers : BodyCovers lws args)
    (hheld : args.inResponse.len ≤ (tcharToUtf8 args.inResponse).length) :
    ∃ bytes rest, sentBytes dummy (sendResponse lws self args).calls = some bytes ∧
      takeMessages responseLength (h.forged.length + 1) bytes =
        some (⟨lws.statusLine httpStatusOk, h.fields lws args before, h.body⟩ :: h.forged,
          rest) := by
  obtain ⟨hvalid, hunframed⟩ := h.fields_valid lws args hprint hplain
  have hfields : List.Forall₂ (fun c f => lines c = [c] ∧ parseField c = some f)
      ((h.fields lws args before).map fieldContent) (h.fields lws args before) := by
    rw [List.forall₂_map_left_iff, List.forall₂_same]
    exact fun f hf => parseField_fieldContent (hvalid f hf).1 (hvalid f hf).2
  have hlength : responseLength (lws.statusLine httpStatusOk) (h.fields lws args before) =
      some h.body.length := by
    rw [hbody]
    exact responseLength_of_unframed lws hstatus args hunframed
  have hfirst := delimits_print (lines_statusLine lws) hfields hlength
  have hbefore : before.map (suppliedContent lws) =
      (before.map (suppliedField lws)).map fieldContent := by
    rw [List.map_map]
    exact List.map_congr_left fun s hs => (suppliedField_of_printable lws (hprint s hs)).1
  -- What the server means as the rest of the block and the body comes behind the pieces.
  have hsplit : (headerLines lws args).flatten ++
        (tcharToUtf8 args.inResponse).take args.inResponse.len ++ dummy =
      ((print (lws.statusLine httpStatusOk) ((h.fields lws args before).map fieldContent) ++
          h.body) :: h.pieces).flatten ++
        ([13, 10] ++ (((behind.map (suppliedContent lws)).map closed).flatten ++
          ([13, 10] ++ ((tcharToUtf8 args.inResponse).take args.inResponse.len ++ dummy)))) := by
    simp only [flatten_headerLines, hsupplied, hbefore, print, fields, List.map_append,
      List.map_cons, List.map_nil, List.flatten_append, List.flatten_cons, List.flatten_nil,
      h.closed_suppliedContent lws, List.append_assoc, List.append_nil]
  rw [sentBytes_sendResponse lws hcovers hheld dummy self hreason, hsplit]
  exact ⟨_, _, rfl, takeMessages_flatten (.cons hfirst h.delimits) _⟩

end SplittingHeader

/-- The bytes of the 404 are ASCII. -/
theorem notFoundBytes_ascii : ∀ b ∈ notFoundBytes, b ≠ 0 ∧ b.toNat < 0x80 := by
  have hall : notFoundBytes.all (fun b => b != 0 && decide (b.toNat < 0x80)) = true := by decide
  intro b hb
  simpa using List.all_eq_true.mp hall b hb

/-- A value that brings 64 letters and a 404 of its own. -/
def forgedNotFound : SplittingHeader where
  key := text "x-id"
  value := ascii "7"
  body := List.replicate 64 120
  pieces := [notFoundBytes]
  forged := [notFound]
  token := by decide
  unframed := by decide
  proper := by decide
  isAscii := by
    have hseven : ascii "7" = [55] := by decide
    simp only [List.forall_mem_append, List.flatten_singleton, hseven]
    refine ⟨⟨by simp, ?_⟩, notFoundBytes_ascii⟩
    intro b hb
    rw [List.eq_of_mem_replicate hb]
    decide
  delimits := .cons delimits_notFound .nil

/-- 64 letters with this header. -/
def lettersForged : ResponseArgs :=
  { ResponseArgs.plainText (List.replicate 64 120) with
    inCustomHeaders :=
      KeyedMap.empty.add (text "x-id") (forgedNotFound.bytes.map fun b => UInt16.ofNat b.toNat) }

/-- A client takes the 404 for an answer of the server. -/
theorem lettersForged_taken :
    ∃ bytes rest, sentBytes [] (sendResponse Lws.plain (.newObject timeRequest.params)
        lettersForged).calls = some bytes ∧
      takeMessages responseLength 2 bytes =
        some ([⟨Lws.plain.statusLine httpStatusOk,
          forgedNotFound.fields Lws.plain lettersForged [], List.replicate 64 120⟩, notFound],
            rest) := by
  have hsupplied : suppliedHeaders lettersForged = [] ++ forgedNotFound.supplied :: [] := rfl
  apply forgedNotFound.client_takes_forged Lws.plain (by simp [StatusUnframed, Lws.plain]) _ rfl
    [] hsupplied (by simp) (by simp) (by decide)
  · exact ⟨by decide +kernel, by decide +kernel⟩
  · decide

end HttpLws
