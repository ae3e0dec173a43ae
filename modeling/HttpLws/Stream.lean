import HttpLws.Exchange
import HttpLws.Framing
import HttpLws.Lib.MessageStream
import HttpLws.Payload
import HttpLws.ReturnValues

/-!
# The stream of a connection

All that the callback sends on a connection is one stream: the header block and the
body of every answer, and what the default handler sends behind it. Requests of many
connections are served in any order. A client that frames messages by their
content-length takes the stream of its connection apart.
-/

namespace HttpLws

open Unicode HeaderBlock MessageStream

variable (lws : Lws) (conv : AnsiConversion)

/-- The code in a status line. -/
def statusCode (start : List UInt8) : Option ℕ :=
  lengthValue (((start.dropWhile (· ≠ 32)).drop 1).takeWhile (· ≠ 32))

/-- The values of the fields with a name. -/
def fieldValues (name : List UInt8) (fs : List Field) : List (List UInt8) :=
  (fs.filter fun f => f.name.map lowerByte = name).map (·.value)

/-- How many bytes of body a client reads behind a head, when its request was not
`HEAD`. A body with a transfer coding, or up to the end of the connection, is not read. -/
def responseLength (start : List UInt8) (fs : List Field) : Option ℕ :=
  match statusCode start with
  | none => none
  | some code =>
      if Bodyless code ∨ code = 304 then some 0
      else if fieldValues (ascii "transfer-encoding") fs ≠ [] then none
      else match (fieldValues (ascii "content-length") fs).map lengthValue with
        | [] => none
        | n :: ns => if ns.all (· == n) then n else none

/-- The bytes that a call sends; `dummy` is what the default handler answers. -/
def LwsCall.sent (dummy : List UInt8) : LwsCall → Option (List UInt8)
  | .write buffer len _ => writtenBytes buffer len
  | .callbackHttpDummy .lwsCallbackHttp => some dummy
  | _ => some []

/-- The bytes that some calls send, when every write stays within its buffer. -/
def sentBytes (dummy : List UInt8) : List LwsCall → Option (List UInt8)
  | [] => some []
  | call :: calls =>
      match call.sent dummy, sentBytes dummy calls with
      | some bytes, some rest => some (bytes ++ rest)
      | _, _ => none

/-- The stream of a connection. -/
def connectionStream (dummy : ℕ → List UInt8) (wsi : ℕ) (wire : Wire) : Option (List UInt8) :=
  sentBytes (dummy wsi) ((wire.filter (·.1 = wsi)).map (·.2))

/-- The field of a supplied header that can be printed as it is. -/
def suppliedField : SuppliedHeader → Field
  | .custom key value => ⟨narrow key, narrow value⟩
  | .known header value =>
      ⟨(lws.lwsTokenToString (bpHeadersToLws header)).takeWhile (· ≠ 58), narrow value⟩

/-- The message of an answer. -/
def answerMessage (args : ResponseArgs) : Message where
  start := lws.statusLine httpStatusOk
  fields := lws.statusFields ++ fixedFields args ++ (suppliedHeaders args).map (suppliedField lws)
  body := (tcharToUtf8 args.inResponse).take args.inResponse.len

/-- The messages that a request puts on its connection while the callback runs: every
answer is followed by that of the default handler. -/
def messagesOf (owner : Owner) (dummyMessage : ℕ → Message) (r : HandledRequest) : List Message :=
  if r.accepted conv owner then
    r.answers.flatMap fun args => [answerMessage lws args, dummyMessage r.wsi]
  else [dummyMessage r.wsi]

/-- An answer that a client can frame. -/
structure Sendable (args : ResponseArgs) : Prop where
  /-- The header block fits the buffer. -/
  covers : BodyCovers lws args
  /-- The supplied headers can be printed as they are. -/
  printable : ∀ h ∈ suppliedHeaders args, h.Printable
  /-- No supplied header names a transfer coding. -/
  plain : ∀ h ∈ suppliedHeaders args, headerName lws h ≠ ascii "transfer-encoding"
  /-- A supplied content-length is that of the text. -/
  measured : ∀ h ∈ suppliedHeaders args, headerName lws h = ascii "content-length" →
    lengthValue (narrow h.value) = some args.inResponse.len
  /-- The converted text has as many bytes as it has TCHARs. -/
  held : args.inResponse.len ≤ (tcharToUtf8 args.inResponse).length

/-- The status call adds no field that frames a message. -/
def StatusUnframed : Prop :=
  ∀ f ∈ lws.statusFields, f.name.map lowerByte ≠ ascii "content-length" ∧
    f.name.map lowerByte ≠ ascii "transfer-encoding"

/-- The field of a supplied header stands on its line. -/
theorem suppliedField_of_printable {h : SuppliedHeader} (hprint : h.Printable) :
    suppliedContent lws h = fieldContent (suppliedField lws h) ∧
      IsToken (suppliedField lws h).name ∧ IsFieldValue (suppliedField lws h).value ∧
      (suppliedField lws h).name.map lowerByte = headerName lws h ∧
      (suppliedField lws h).value = narrow h.value := by
  cases h with
  | custom key value =>
    obtain ⟨hkey, hvalue⟩ := hprint
    refine ⟨?_, hkey.2, hvalue.2, rfl, rfl⟩
    rw [suppliedContent_custom lws hkey, copy_of_printableValue lws hvalue]
    rfl
  | known header value =>
    have hvalue : PrintableValue value := hprint
    obtain ⟨name, htoken, hname⟩ := lwsTokenToString_known lws header
    have hfield : suppliedField lws (.known header value) = ⟨name, narrow value⟩ := by
      rw [suppliedField, htoken, hname.takeWhile]
    rw [hfield]
    refine ⟨?_, hname, hvalue.2, ?_, rfl⟩
    · rw [suppliedContent, htoken, copy_of_printableValue lws hvalue, fieldContent,
        List.append_assoc, List.singleton_append]
    · rw [headerName, htoken, lineName, hname.takeWhile]

/-- Fields of which none has the name have no value under it. -/
theorem fieldValues_eq_nil {name : List UInt8} {fs : List Field}
    (h : ∀ f ∈ fs, f.name.map lowerByte ≠ name) : fieldValues name fs = [] := by
  rw [fieldValues, List.filter_eq_nil_iff.mpr, List.map_nil]
  intro f hf
  simpa using h f hf

/-- The values of concatenated fields. -/
theorem fieldValues_append (name : List UInt8) (fs gs : List Field) :
    fieldValues name (fs ++ gs) = fieldValues name fs ++ fieldValues name gs := by
  simp [fieldValues]

/-- The values that the supplied headers have under a name. -/
theorem fieldValues_supplied {args : ResponseArgs}
    (hprint : ∀ h ∈ suppliedHeaders args, h.Printable) (name : List UInt8) :
    fieldValues name ((suppliedHeaders args).map (suppliedField lws)) =
      ((suppliedHeaders args).filter fun h => headerName lws h = name).map
        fun h => narrow h.value := by
  have hfilter : ((suppliedHeaders args).map (suppliedField lws)).filter
        (fun f => f.name.map lowerByte = name) =
      ((suppliedHeaders args).filter fun h => headerName lws h = name).map
        (suppliedField lws) := by
    rw [List.filter_map]
    congr 1
    refine List.filter_congr fun h hh => ?_
    rw [Function.comp_apply, (suppliedField_of_printable lws (hprint h hh)).2.2.2.1]
  rw [fieldValues, hfilter, List.map_map]
  refine List.map_congr_left fun h hh => ?_
  exact (suppliedField_of_printable lws (hprint h (List.mem_filter.mp hh).1)).2.2.2.2

/-- Of the fixed headers, none names a transfer coding and one is a content-length. -/
theorem fieldValues_fixed (args : ResponseArgs) :
    fieldValues (ascii "transfer-encoding") (fixedFields args) = [] ∧
      fieldValues (ascii "content-length") (fixedFields args) = [decimal args.inResponse.len] := by
  constructor
  · have hnames : (fixedFields args).map (fun f => f.name.map lowerByte) = fixedNames := rfl
    apply fieldValues_eq_nil
    intro f hf heq
    have hmem : f.name.map lowerByte ∈ fixedNames := by
      rw [← hnames]
      exact List.mem_map_of_mem hf
    rw [heq] at hmem
    exact absurd hmem (by decide)
  · have horigin : (ascii "access-control-allow-origin").map lowerByte ≠ ascii "content-length" :=
      by decide
    have htype : (ascii "content-type").map lowerByte ≠ ascii "content-length" := by decide
    have hlength : (ascii "content-length").map lowerByte = ascii "content-length" := by decide
    simp [fieldValues, fixedFields, horigin, htype, hlength]

/-- Behind the fields of the status call and the fixed ones, only further fields can name
a transfer coding. -/
theorem transferEncodings_append (hstatus : StatusUnframed lws) (args : ResponseArgs)
    (fs : List Field) :
    fieldValues (ascii "transfer-encoding") (lws.statusFields ++ fixedFields args ++ fs) =
      fieldValues (ascii "transfer-encoding") fs := by
  rw [fieldValues_append, fieldValues_append, fieldValues_eq_nil fun f hf => (hstatus f hf).2,
    (fieldValues_fixed args).1]
  rfl

/-- The first content-length is that of the text. -/
theorem contentLengths_append (hstatus : StatusUnframed lws) (args : ResponseArgs)
    (fs : List Field) :
    (fieldValues (ascii "content-length") (lws.statusFields ++ fixedFields args ++ fs)).map
        lengthValue =
      some args.inResponse.len ::
        (fieldValues (ascii "content-length") fs).map lengthValue := by
  rw [fieldValues_append, fieldValues_append, fieldValues_eq_nil fun f hf => (hstatus f hf).1,
    (fieldValues_fixed args).2, List.nil_append, List.singleton_append, List.map_cons]
  congr 1
  exact lengthValue_toDigits _

/-- The status line has the code 200, which comes with a body. -/
theorem statusCode_statusLine :
    statusCode (lws.statusLine httpStatusOk) = some 200 ∧ ¬(Bodyless 200 ∨ 200 = 304) := by
  rw [lws.statusLine_ok]
  decide

/-- Further fields that do not frame leave the length to the text. -/
theorem responseLength_of_unframed (hstatus : StatusUnframed lws) (args : ResponseArgs)
    {fs : List Field} (hfs : ∀ f ∈ fs, f.name.map lowerByte ≠ ascii "content-length" ∧
      f.name.map lowerByte ≠ ascii "transfer-encoding") :
    responseLength (lws.statusLine httpStatusOk) (lws.statusFields ++ fixedFields args ++ fs) =
      some args.inResponse.len := by
  obtain ⟨hcode, hbody⟩ := statusCode_statusLine lws
  have hcodings := fieldValues_eq_nil fun f hf => (hfs f hf).2
  have hlengths := fieldValues_eq_nil fun f hf => (hfs f hf).1
  simp only [responseLength, hcode, if_neg hbody, transferEncodings_append lws hstatus,
    contentLengths_append lws hstatus, hcodings, hlengths]
  simp

/-- The client reads as many bytes behind the head of an answer as the text has TCHARs,
exactly when the supplied headers name no transfer coding and no other length. -/
theorem responseLength_answer_iff (hstatus : StatusUnframed lws) {args : ResponseArgs}
    (hprint : ∀ h ∈ suppliedHeaders args, h.Printable) :
    responseLength (lws.statusLine httpStatusOk) (answerMessage lws args).fields =
        some args.inResponse.len ↔
      (∀ h ∈ suppliedHeaders args, headerName lws h ≠ ascii "transfer-encoding") ∧
        ∀ h ∈ suppliedHeaders args, headerName lws h = ascii "content-length" →
          lengthValue (narrow h.value) = some args.inResponse.len := by
  obtain ⟨hcode, hbody⟩ := statusCode_statusLine lws
  simp only [answerMessage, responseLength, hcode, if_neg hbody,
    transferEncodings_append lws hstatus, contentLengths_append lws hstatus,
    fieldValues_supplied lws hprint]
  have hcoding : (∀ h ∈ suppliedHeaders args, headerName lws h ≠ ascii "transfer-encoding") ↔
      ((suppliedHeaders args).filter fun h => headerName lws h = ascii "transfer-encoding").map
        (fun h => narrow h.value) = [] := by
    simp [List.filter_eq_nil_iff]
  rw [hcoding]
  split_ifs with hnone hall
  · simp [hnone]
  · simp only [List.all_map, List.all_eq_true, List.mem_filter, Function.comp_apply,
      decide_eq_true_eq, beq_iff_eq, and_imp] at hall
    exact iff_of_true rfl ⟨not_not.mp hnone, hall⟩
  · simp only [List.all_map, List.all_eq_true, List.mem_filter, Function.comp_apply,
      decide_eq_true_eq, beq_iff_eq, and_imp] at hall
    exact iff_of_false (by simp) fun h => hall h.2

/-- The fields of an answer are proper fields. -/
theorem fields_answer_valid {args : ResponseArgs}
    (hprint : ∀ h ∈ suppliedHeaders args, h.Printable) :
    ∀ f ∈ (answerMessage lws args).fields, IsToken f.name ∧ IsFieldValue f.value := by
  simp only [answerMessage, List.forall_mem_append]
  refine ⟨⟨lws.statusFields_valid, fixedFields_valid args⟩, fun f hf => ?_⟩
  obtain ⟨h, hh, rfl⟩ := List.mem_map.mp hf
  obtain ⟨-, hname, hvalue, -⟩ := suppliedField_of_printable lws (hprint h hh)
  exact ⟨hname, hvalue⟩

/-- The header lines of an answer print its fields. -/
theorem headerLines_answer {args : ResponseArgs}
    (hprint : ∀ h ∈ suppliedHeaders args, h.Printable) :
    (headerLines lws args).flatten =
      print (answerMessage lws args).start ((answerMessage lws args).fields.map fieldContent) := by
  have hcontents : (suppliedHeaders args).map (suppliedContent lws) =
      ((suppliedHeaders args).map (suppliedField lws)).map fieldContent := by
    rw [List.map_map]
    exact List.map_congr_left fun h hh => (suppliedField_of_printable lws (hprint h hh)).1
  rw [flatten_headerLines, hcontents, ← List.map_append]
  rfl

/-- **An answer delimits itself.** The header block and the body of an answer that a
client can frame are taken as the message of the answer, whatever follows them. -/
theorem delimits_answer (hstatus : StatusUnframed lws) {args : ResponseArgs}
    (h : Sendable lws args) :
    Delimits responseLength
      ((headerLines lws args).flatten ++ (tcharToUtf8 args.inResponse).take args.inResponse.len)
      (answerMessage lws args) := by
  have hvalid := fields_answer_valid lws h.printable
  have hfields : List.Forall₂ (fun c f => lines c = [c] ∧ parseField c = some f)
      ((answerMessage lws args).fields.map fieldContent) (answerMessage lws args).fields := by
    rw [List.forall₂_map_left_iff, List.forall₂_same]
    exact fun f hf => parseField_fieldContent (hvalid f hf).1 (hvalid f hf).2
  have hlength : responseLength (lws.statusLine httpStatusOk) (answerMessage lws args).fields =
      some ((tcharToUtf8 args.inResponse).take args.inResponse.len).length := by
    rw [List.length_take, Nat.min_eq_left h.held]
    exact (responseLength_answer_iff lws hstatus h.printable).mpr ⟨h.plain, h.measured⟩
  rw [headerLines_answer lws h.printable]
  exact delimits_print (lines_statusLine lws) hfields hlength

/-- What two runs of calls send. -/
theorem sentBytes_append (dummy : List UInt8) (calls calls' : List LwsCall) :
    sentBytes dummy (calls ++ calls') =
      (sentBytes dummy calls).bind fun first => (sentBytes dummy calls').map (first ++ ·) := by
  induction calls with
  | nil => simp [sentBytes]
  | cons call calls ih =>
    rw [List.cons_append, sentBytes, sentBytes, ih]
    cases call.sent dummy with
    | none => rfl
    | some bytes =>
      cases sentBytes dummy calls with
      | none => rfl
      | some rest => cases sentBytes dummy calls' <;> simp

/-- Header calls send nothing. -/
theorem sentBytes_header (dummy : List UInt8) (calls : List HeaderCall) (flags : List Bool) :
    sentBytes dummy (List.zipWith .header calls flags) = some [] := by
  induction calls generalizing flags with
  | nil => rfl
  | cons call calls ih =>
    cases flags with
    | nil => rfl
    | cons flag flags => simp [sentBytes, LwsCall.sent, ih]

/-- An answer whose block fits sends it and its body, and then the default handler answers. -/
theorem sentBytes_sendResponse {args : ResponseArgs} (hcovers : BodyCovers lws args)
    (hheld : args.inResponse.len ≤ (tcharToUtf8 args.inResponse).length) (dummy : List UInt8)
    (self : ULwsRequest) (hreason : self.params.reason = .lwsCallbackHttp) :
    sentBytes dummy (sendResponse lws self args).calls =
      some ((headerLines lws args).flatten ++
        (tcharToUtf8 args.inResponse).take args.inResponse.len ++ dummy) := by
  have hfit := ((bodyCovers_iff_fit lws args).mp hcovers).2
  rw [sendResponse, sendResponseFrom_calls, emitted_of_fit lws hfit, hreason]
  rw [sentBytes_append, sentBytes_header, Option.bind_some]
  simp [sentBytes, LwsCall.sent, writtenBytes, hheld]

/-- The answers to a request are sent one after the other. -/
theorem exists_pieces_answer (hstatus : StatusUnframed lws) {dummy : List UInt8}
    {dummyMessage : Message} (hdummy : Delimits responseLength dummy dummyMessage)
    {answers : List ResponseArgs} (hsend : ∀ args ∈ answers, Sendable lws args)
    (self : ULwsRequest) (hreason : self.params.reason = .lwsCallbackHttp) :
    ∃ pieces, sentBytes dummy (self.answer lws answers).2 = some pieces.flatten ∧
      List.Forall₂ (Delimits responseLength) pieces
        (answers.flatMap fun args => [answerMessage lws args, dummyMessage]) := by
  induction answers generalizing self with
  | nil => exact ⟨[], rfl, .nil⟩
  | cons args answers ih =>
    rw [List.forall_mem_cons] at hsend
    obtain ⟨pieces, hbytes, hpieces⟩ := ih hsend.2 (sendResponse lws self args).self hreason
    have hanswer :=
      sentBytes_sendResponse lws hsend.1.covers hsend.1.held dummy self hreason
    refine ⟨((headerLines lws args).flatten ++
      (tcharToUtf8 args.inResponse).take args.inResponse.len) :: dummy :: pieces, ?_, ?_⟩
    · rw [ULwsRequest.answer, List.flatten_cons, List.flatten_cons, ← List.append_assoc]
      rw [sentBytes_append, hanswer, hbytes]
      rfl
    · rw [List.flatMap_cons, List.cons_append, List.singleton_append]
      exact .cons (delimits_answer lws hstatus hsend.1) (.cons hdummy hpieces)

/-- The calls that the callback makes for a request. -/
def callsOf (owner : Owner) (r : HandledRequest) : List LwsCall :=
  if r.accepted conv owner then ((ULwsRequest.newObject r.params).answer lws r.answers).2
  else [.callbackHttpDummy .lwsCallbackHttp]

/-- Serving a request appends its calls. -/
theorem serve_callsOf (owner : Owner) (wire : Wire) (r : HandledRequest) :
    serve lws conv owner wire r = some (wire ++ (callsOf lws conv owner r).map (r.wsi, ·)) := by
  rw [serve, callsOf]
  split_ifs with haccepted
  · rw [callbackHttp_accepted lws conv haccepted]
    rfl
  · rw [callbackHttp_request, if_neg haccepted]
    rfl

/-- Serving requests appends their calls in the order of the requests. -/
theorem exec_serve (owner : Owner) (requests : List HandledRequest) (wire : Wire) :
    Runs.exec (serve lws conv owner) wire requests =
      some (wire ++ requests.flatMap fun r => (callsOf lws conv owner r).map (r.wsi, ·)) := by
  induction requests generalizing wire with
  | nil => simp [Runs.exec]
  | cons r requests ih =>
    rw [Runs.exec, serve_callsOf, Option.bind_some, ih, List.flatMap_cons, List.append_assoc]

/-- A connection is sent the calls for its own requests. -/
theorem calls_on_connection (owner : Owner) (requests : List HandledRequest) (wsi : ℕ) :
    ((requests.flatMap fun r => (callsOf lws conv owner r).map (r.wsi, ·)).filter
        (·.1 = wsi)).map (·.2) =
      (requests.filter (·.wsi = wsi)).flatMap (callsOf lws conv owner) := by
  induction requests with
  | nil => rfl
  | cons r requests ih =>
    rw [List.flatMap_cons, List.filter_append, List.map_append, ih, List.filter_map]
    by_cases hwsi : r.wsi = wsi
    · rw [List.filter_cons_of_pos (by simpa using hwsi), List.flatMap_cons]
      simp [Function.comp_def, hwsi]
    · rw [List.filter_cons_of_neg (by simpa using hwsi)]
      simp [Function.comp_def, hwsi]

/-- The calls for some requests of a connection send pieces that delimit their messages. -/
theorem exists_pieces_callsOf (hstatus : StatusUnframed lws) (owner : Owner) {wsi : ℕ}
    {dummy : ℕ → List UInt8} {dummyMessage : ℕ → Message}
    (hdummy : Delimits responseLength (dummy wsi) (dummyMessage wsi))
    {requests : List HandledRequest} (hwsi : ∀ r ∈ requests, r.wsi = wsi)
    (hsend : ∀ r ∈ requests, r.accepted conv owner → ∀ args ∈ r.answers, Sendable lws args) :
    ∃ pieces, sentBytes (dummy wsi) (requests.flatMap (callsOf lws conv owner)) =
        some pieces.flatten ∧
      List.Forall₂ (Delimits responseLength) pieces
        (requests.flatMap (messagesOf lws conv owner dummyMessage)) := by
  induction requests with
  | nil => exact ⟨[], rfl, .nil⟩
  | cons r requests ih =>
    rw [List.forall_mem_cons] at hwsi hsend
    obtain ⟨later, hlater, hpieces⟩ := ih hwsi.2 hsend.2
    have hfirst : ∃ pieces, sentBytes (dummy wsi) (callsOf lws conv owner r) =
        some pieces.flatten ∧ List.Forall₂ (Delimits responseLength) pieces
          (messagesOf lws conv owner dummyMessage r) := by
      rw [callsOf, messagesOf, hwsi.1]
      split_ifs with haccepted
      · exact exists_pieces_answer lws hstatus hdummy (hsend.1 haccepted) _ rfl
      · exact ⟨[dummy wsi], by simp [sentBytes, LwsCall.sent], .cons hdummy .nil⟩
    obtain ⟨pieces, hbytes, hdelimit⟩ := hfirst
    refine ⟨pieces ++ later, ?_, ?_⟩
    · rw [List.flatMap_cons, List.flatten_append]
      rw [sentBytes_append, hbytes, hlater]
      rfl
    · rw [List.flatMap_cons]
      exact List.rel_append hdelimit hpieces

/-- The stream of a connection after some requests is read as their messages. -/
theorem exists_stream_of_requests (hstatus : StatusUnframed lws) (owner : Owner)
    {dummy : ℕ → List UInt8} {dummyMessage : ℕ → Message}
    (hdummy : ∀ wsi, Delimits responseLength (dummy wsi) (dummyMessage wsi))
    {requests : List HandledRequest}
    (hsend : ∀ r ∈ requests, r.accepted conv owner → ∀ args ∈ r.answers, Sendable lws args)
    (wsi : ℕ) :
    ∃ bytes, connectionStream dummy wsi
        (requests.flatMap fun r => (callsOf lws conv owner r).map (r.wsi, ·)) = some bytes ∧
      readAll responseLength bytes =
        some ((requests.filter (·.wsi = wsi)).flatMap
          (messagesOf lws conv owner dummyMessage)) := by
  obtain ⟨pieces, hbytes, hpieces⟩ := exists_pieces_callsOf lws conv hstatus owner (hdummy wsi)
    (fun r (hr : r ∈ requests.filter (·.wsi = wsi)) =>
      of_decide_eq_true (List.mem_filter.mp hr).2)
    (fun r hr => hsend r (List.mem_filter.mp hr).1)
  refine ⟨pieces.flatten, ?_, readAll_flatten hpieces⟩
  rw [connectionStream, calls_on_connection, hbytes]

/-- **The messages of a connection.** Requests of any connections are served in any
order, and every answer sent is one that a client can frame. Then the stream of each
connection is read as the messages of the requests on this connection in their order:
for an accepted request every answer and behind each of them the answer of the
default handler, for a refused request the answer of the default handler alone. -/
theorem connectionStream_read (hstatus : StatusUnframed lws) (owner : Owner)
    {dummy : ℕ → List UInt8} {dummyMessage : ℕ → Message}
    (hdummy : ∀ wsi, Delimits responseLength (dummy wsi) (dummyMessage wsi))
    {requests : List HandledRequest}
    (hsend : ∀ r ∈ requests, r.accepted conv owner → ∀ args ∈ r.answers, Sendable lws args) :
    ∃ wire, Runs.exec (serve lws conv owner) [] requests = some wire ∧
      ∀ wsi, ∃ bytes, connectionStream dummy wsi wire = some bytes ∧
        readAll responseLength bytes =
          some ((requests.filter (·.wsi = wsi)).flatMap
            (messagesOf lws conv owner dummyMessage)) :=
  ⟨_, exec_serve lws conv owner requests [],
    exists_stream_of_requests lws conv hstatus owner hdummy hsend⟩

/-- The answer of a default handler: 404 without a body. -/
def notFound : Message where
  start := ascii "HTTP/1.1 404 Not Found"
  fields := [⟨ascii "content-length", ascii "0"⟩]
  body := []

/-- Its bytes. -/
def notFoundBytes : List UInt8 :=
  print notFound.start (notFound.fields.map fieldContent) ++ notFound.body

/-- They are taken as this answer. -/
theorem delimits_notFound : Delimits responseLength notFoundBytes notFound := by
  apply delimits_print
  · decide
  · refine .cons ?_ .nil
    decide
  · decide

/-- A text of 64 letters can be framed. -/
theorem sendable_letters : Sendable Lws.plain (.plainText (List.replicate 64 120)) := by
  refine ⟨⟨by decide, by decide⟩, ?_, ?_, ?_, by decide⟩
  · decide
  · decide
  · decide

/-- A request below the API path on connection 1 is answered with 64 letters, and one
outside of it on connection 2 is refused. -/
def twoConnections : List HandledRequest :=
  [⟨⟨2, 0, ascii "/style.css", [], by decide⟩, ⟨[], []⟩⟩,
    ⟨timeRequest, ⟨[], [.plainText (List.replicate 64 120)]⟩⟩]

/-- The two connections are read apart. -/
theorem twoConnections_read :
    ∃ wire, Runs.exec (serve Lws.plain .latin1 ⟨⟨ascii "api", 3⟩⟩) [] twoConnections = some wire ∧
      ∀ wsi, ∃ bytes, connectionStream (fun _ => notFoundBytes) wsi wire = some bytes ∧
        readAll responseLength bytes =
          some ((twoConnections.filter (·.wsi = wsi)).flatMap
            (messagesOf Lws.plain .latin1 ⟨⟨ascii "api", 3⟩⟩ fun _ => notFound)) := by
  apply connectionStream_read Lws.plain .latin1 (by simp [StatusUnframed, Lws.plain]) _
    (fun _ => delimits_notFound)
  intro r hr _ args hargs
  simp only [twoConnections, List.mem_cons, List.not_mem_nil, or_false] at hr
  rcases hr with rfl | rfl
  · simp [HandledRequest.answers] at hargs
  · obtain rfl : args = .plainText (List.replicate 64 120) := by
      simpa [HandledRequest.answers] using hargs
    exact sendable_letters

/-- Messages in pairs: those of even places and those of odd places. -/
theorem getElem?_flatMap_pair {α β : Type} (first : α → β) (second : β) (as : List α) (k : ℕ) :
    (as.flatMap fun a => [first a, second])[2 * k]? = as[k]?.map first ∧
      (as.flatMap fun a => [first a, second])[2 * k + 1]? = as[k]?.map fun _ => second := by
  induction as generalizing k with
  | nil => simp
  | cons a as ih =>
    cases k with
    | zero => simp
    | succ k =>
      have htwo : 2 * (k + 1) = 2 * k + 1 + 1 := by omega
      obtain ⟨heven, hodd⟩ := ih k
      rw [htwo]
      simpa using ⟨heven, hodd⟩

/-- **Answers arrive at the wrong requests.** When every request of a connection is
accepted and answered once, its client reads twice as many messages as it has sent
requests: the answer to request `k` is message `2 * k`, and behind it stands the
answer of the default handler. -/
theorem answered_once_shifted (hstatus : StatusUnframed lws) (owner : Owner)
    {dummy : ℕ → List UInt8} {dummyMessage : ℕ → Message}
    (hdummy : ∀ wsi, Delimits responseLength (dummy wsi) (dummyMessage wsi))
    {requests : List HandledRequest}
    (hsend : ∀ r ∈ requests, r.accepted conv owner → ∀ args ∈ r.answers, Sendable lws args)
    {wsi : ℕ} (answerOf : HandledRequest → ResponseArgs)
    (honce : ∀ r ∈ requests, r.wsi = wsi → r.accepted conv owner ∧ r.answers = [answerOf r]) :
    ∃ wire bytes messages, Runs.exec (serve lws conv owner) [] requests = some wire ∧
      connectionStream dummy wsi wire = some bytes ∧
      readAll responseLength bytes = some messages ∧
      ∀ k, messages[2 * k]? = (requests.filter (·.wsi = wsi))[k]?.map
            (fun r => answerMessage lws (answerOf r)) ∧
          messages[2 * k + 1]? = (requests.filter (·.wsi = wsi))[k]?.map
            fun _ => dummyMessage wsi := by
  obtain ⟨bytes, hbytes, hread⟩ :=
    exists_stream_of_requests lws conv hstatus owner hdummy hsend wsi
  have hpairs : (requests.filter (·.wsi = wsi)).flatMap (messagesOf lws conv owner dummyMessage) =
      (requests.filter (·.wsi = wsi)).flatMap
        fun r => [answerMessage lws (answerOf r), dummyMessage wsi] := by
    refine List.flatMap_congr fun r hr => ?_
    obtain ⟨hr, hwsi⟩ := List.mem_filter.mp hr
    obtain ⟨haccepted, hanswers⟩ := honce r hr (of_decide_eq_true hwsi)
    rw [messagesOf, if_pos haccepted, hanswers, of_decide_eq_true hwsi]
    rfl
  rw [hpairs] at hread
  refine ⟨_, bytes, _, exec_serve lws conv owner requests [], hbytes, hread, fun k => ?_⟩
  exact getElem?_flatMap_pair _ _ _ k

/-- Two requests on connection 1, each answered with 64 letters. -/
def askedTwice : List HandledRequest :=
  List.replicate 2 ⟨timeRequest, ⟨[], [.plainText (List.replicate 64 120)]⟩⟩

/-- The second request gets the 404 that was sent behind the first answer. -/
theorem askedTwice_shifted :
    ∃ wire bytes messages,
      Runs.exec (serve Lws.plain .latin1 ⟨⟨ascii "api", 3⟩⟩) [] askedTwice = some wire ∧
        connectionStream (fun _ => notFoundBytes) 1 wire = some bytes ∧
        readAll responseLength bytes = some messages ∧ messages[1]? = some notFound := by
  have hask : ∀ r ∈ askedTwice, r =
      ⟨timeRequest, ⟨[], [.plainText (List.replicate 64 120)]⟩⟩ := fun r hr =>
    List.eq_of_mem_replicate hr
  have hsend : ∀ r ∈ askedTwice, r.accepted .latin1 ⟨⟨ascii "api", 3⟩⟩ →
      ∀ args ∈ r.answers, Sendable Lws.plain args := by
    intro r hr _ args hargs
    obtain rfl := hask r hr
    obtain rfl : args = .plainText (List.replicate 64 120) := by
      simpa [HandledRequest.answers] using hargs
    exact sendable_letters
  have honce : ∀ r ∈ askedTwice, r.wsi = 1 → r.accepted .latin1 ⟨⟨ascii "api", 3⟩⟩ ∧
      r.answers = [.plainText (List.replicate 64 120)] := by
    intro r hr _
    obtain rfl := hask r hr
    exact ⟨by decide, rfl⟩
  obtain ⟨wire, bytes, messages, hexec, hbytes, hread, hshift⟩ :=
    answered_once_shifted Lws.plain .latin1 (by simp [StatusUnframed, Lws.plain])
      ⟨⟨ascii "api", 3⟩⟩ (fun _ => delimits_notFound) hsend _ honce
  exact ⟨wire, bytes, messages, hexec, hbytes, hread, (hshift 0).2⟩

end HttpLws
