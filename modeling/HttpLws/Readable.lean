import HttpLws.Lib.LineCount
import HttpLws.Stream

/-!
# Which answers a client reads

A header call that fails is not noticed: what the others wrote is sent, and the body
behind it. The block is then made of whole lines and of beginnings of lines, and a client
cannot take it for the head of the answer. It reads the answer back exactly when every
line fits and the supplied headers frame the body that is sent.
-/

namespace HttpLws

open Unicode HeaderBlock MessageStream BoundedBuffer

variable (lws : Lws)

/-- Every header line ends with CR LF. -/
theorem line_closed (call : HeaderCall) : ∃ content, lws.line call = closed content := by
  cases call with
  | lwsAddHttpHeaderStatus code =>
    have hfields : ∀ cs : List (List UInt8), ∀ c, ∃ content,
        closed c ++ (cs.map closed).flatten = closed content := by
      intro cs
      induction cs with
      | nil => exact fun c => ⟨c, by simp⟩
      | cons c' cs ih =>
        intro c
        obtain ⟨content, hcontent⟩ := ih c'
        refine ⟨closed c ++ content, ?_⟩
        rw [List.map_cons, List.flatten_cons, hcontent]
        simp [closed]
    obtain ⟨content, hcontent⟩ := hfields (lws.statusFields.map fieldContent) (lws.statusLine code)
    refine ⟨content, ?_⟩
    rw [← hcontent, Lws.line, List.map_map]
    rfl
  | lwsAddHttpHeaderByToken token value length => exact ⟨_, rfl⟩
  | lwsAddHttpHeaderContentLength length => exact ⟨_, rfl⟩
  | lwsAddHttpHeaderByName name value length => exact ⟨_, rfl⟩
  | lwsFinalizeHttpHeader => exact ⟨[], rfl⟩

/-- What the header calls leave in the buffer. -/
def headParts (payloadSize : ℤ) (args : ResponseArgs) : List (List UInt8) :=
  parts lws.cut (payloadSize - lwsPre) [] (headerLines lws args)

/-- The block is made of what the header calls leave. -/
theorem emitted_eq_headParts (payloadSize : ℤ) (args : ResponseArgs) :
    (emitted lws payloadSize args).1 = (headParts lws payloadSize args).flatten := by
  rw [emitted, putAll_eq_parts, List.nil_append, headParts]

/-- Every part is what its line may leave. -/
theorem forall_leaves_headParts (payloadSize : ℤ) (args : ResponseArgs) :
    List.Forall₂ (Leaves (payloadSize - lwsPre - (headParts lws payloadSize args).flatten.length))
      ((headerLines lws args).zip (emitted lws payloadSize args).2)
      (headParts lws payloadSize args) := by
  have hne : ∀ line ∈ headerLines lws args, line ≠ [] := by
    intro line hline
    obtain ⟨call, _, rfl⟩ := List.mem_map.mp hline
    obtain ⟨content, hcontent⟩ := line_closed lws call
    simp [hcontent, closed]
  rw [← emitted_eq_headParts]
  exact forall_leaves [] hne

/-- The bytes that an answer sends itself, when its body is held. -/
theorem sentBytes_answer_iff (self : ULwsRequest) (payloadSize : ℤ) (args : ResponseArgs)
    (bytes : List UInt8) :
    sentBytes [] (sendResponseFrom lws self payloadSize args).calls = some bytes ↔
      args.inResponse.len ≤ (tcharToUtf8 args.inResponse).length ∧
        (emitted lws payloadSize args).1 ++
          (tcharToUtf8 args.inResponse).take args.inResponse.len = bytes := by
  have hdummy : (LwsCall.callbackHttpDummy self.params.reason).sent [] = some [] := by
    cases self.params.reason <;> rfl
  rw [sendResponseFrom_calls, sentBytes_append, sentBytes_header, Option.bind_some]
  simp only [sentBytes, hdummy]
  by_cases hheld : args.inResponse.len ≤ (tcharToUtf8 args.inResponse).length
  · simp [LwsCall.sent, writtenBytes, hheld]
  · simp [LwsCall.sent, writtenBytes, hheld]

/-- A line that begins with a token does not begin with LF. -/
theorem head?_closed_ne {name content : List UInt8} (hname : IsToken name)
    (hbegins : name <+: content) : (closed content).head? ≠ some 10 := by
  obtain ⟨rest, rfl⟩ := hbegins
  obtain ⟨b, bs, rfl⟩ := List.exists_cons_of_ne_nil hname.1
  have hb := hname.2 b List.mem_cons_self
  intro h
  obtain rfl : b = 10 := by simpa [closed] using h
  exact absurd hb (by decide)

/-- No line of a fixed header begins with LF. -/
theorem head?_fixed_ne (args : ResponseArgs) :
    (lws.line (.lwsAddHttpHeaderStatus httpStatusOk)).head? ≠ some 10 ∧
      (∀ value length, (lws.line (.lwsAddHttpHeaderByToken
        .wsiTokenHttpAccessControlAllowOrigin value length)).head? ≠ some 10) ∧
      (∀ value length, (lws.line (.lwsAddHttpHeaderByToken
        .wsiTokenHttpContentType value length)).head? ≠ some 10) ∧
      (lws.line (.lwsAddHttpHeaderContentLength args.inResponse.len)).head? ≠ some 10 := by
  obtain ⟨horigin, htype, hlength⟩ := lws.lwsTokenToString_fixed
  refine ⟨?_, fun value length => ?_, fun value length => ?_, ?_⟩
  · have hstart : (ascii "HTTP/1.1 200 OK").head? = some 72 := by decide
    rw [Lws.line, lws.statusLine_ok, closed, List.head?_append, List.head?_append, hstart]
    simp
  · rw [Lws.line, horigin, List.append_assoc]
    have hname : IsToken (ascii "access-control-allow-origin") := by decide
    exact head?_closed_ne hname (List.prefix_append _ _)
  · rw [Lws.line, htype, List.append_assoc]
    have hname : IsToken (ascii "content-type") := by decide
    exact head?_closed_ne hname (List.prefix_append _ _)
  · rw [Lws.line, hlength, List.append_assoc]
    have hname : IsToken (ascii "content-length") := by decide
    exact head?_closed_ne hname (List.prefix_append _ _)

/-- No line of a supplied header begins with LF when the header can be printed as it is. -/
theorem head?_supplied_ne {h : SuppliedHeader} (hprint : h.Printable) :
    (closed (suppliedContent lws h)).head? ≠ some 10 := by
  obtain ⟨hcontent, hname, -⟩ := suppliedField_of_printable lws hprint
  rw [hcontent]
  exact head?_closed_ne hname (List.prefix_append _ _)

/-- No header line of a response begins with LF when the supplied headers can be printed
as they are. -/
theorem head?_headerLines_ne {args : ResponseArgs}
    (hprint : ∀ h ∈ suppliedHeaders args, h.Printable) :
    ∀ line ∈ headerLines lws args, line.head? ≠ some 10 := by
  obtain ⟨hstatus, horigin, htype, hlength⟩ := head?_fixed_ne lws args
  have hsupplied : ∀ h ∈ suppliedHeaders args,
      (closed (suppliedContent lws h)).head? ≠ some 10 := fun h hh =>
    head?_supplied_ne lws (hprint h hh)
  rw [suppliedHeaders, List.filter_append, List.forall_mem_append] at hsupplied
  simp only [headerLines, headerCalls, List.map_append, List.map_cons, List.map_nil,
    map_line_filterMap lws (map_line_customHeaderCall lws),
    map_line_filterMap lws (map_line_knownHeaderCall lws), List.forall_mem_append,
    List.forall_mem_cons, List.forall_mem_map]
  refine ⟨⟨⟨⟨hstatus, horigin _ _, htype _ _, hlength, by simp⟩, hsupplied.1⟩, hsupplied.2⟩, ?_⟩
  exact ⟨by simp [Lws.line], by simp⟩

/-- A block that a client takes for the head of an answer has lost no line. -/
theorem emitted_ok_of_head {args : ResponseArgs} {payloadSize : ℤ}
    (hprint : ∀ h ∈ suppliedHeaders args, h.Printable) {ls : List (List UInt8)}
    (hlen : ls.length = (answerMessage lws args).fields.length)
    (hsingle : ∀ l ∈ (answerMessage lws args).start :: ls, lines l = [l])
    (hblock : (emitted lws payloadSize args).1 = print (answerMessage lws args).start ls) :
    ∀ ok ∈ (emitted lws payloadSize args).2, ok = true := by
  have hcount : ∀ contents : List (List UInt8),
      (∀ l ∈ (answerMessage lws args).start :: contents, lines l = [l]) →
      (lines (print (answerMessage lws args).start contents)).length = contents.length + 3 := by
    intro contents hone
    rw [List.forall_mem_cons] at hone
    have hflat : contents.flatMap lines = contents := by
      rw [List.flatMap_congr hone.2, List.flatMap_singleton']
    rw [lines_print, hone.1, hflat]
    simp only [List.length_append, List.length_cons, List.length_nil]
    omega
  have hvalid := fields_answer_valid lws hprint
  have hwhole : ∀ l ∈ (answerMessage lws args).start ::
      (answerMessage lws args).fields.map fieldContent, lines l = [l] := by
    rw [List.forall_mem_cons, List.forall_mem_map]
    exact ⟨lines_statusLine lws, fun f hf =>
      (parseField_fieldContent (hvalid f hf).1 (hvalid f hf).2).1⟩
  have hfirst : ((headerLines lws args).zip (emitted lws payloadSize args).2).map (·.1) =
      headerLines lws args := by
    apply List.map_fst_zip
    rw [length_emitted_flags, headerLines, List.length_map]
  have hclosed : ∀ l ∈ (headerLines lws args).zip (emitted lws payloadSize args).2,
      (∃ content, l.1 = closed content) ∧ l.1.head? ≠ some 10 := by
    intro l hl
    have hmem : l.1 ∈ headerLines lws args := (List.of_mem_zip hl).1
    obtain ⟨call, _, hcall⟩ := List.mem_map.mp hmem
    exact ⟨hcall ▸ line_closed lws call, head?_headerLines_ne lws hprint l.1 hmem⟩
  have hsame : (lines (headParts lws payloadSize args).flatten).length =
      (lines (((headerLines lws args).zip (emitted lws payloadSize args).2).map
        (·.1)).flatten).length := by
    rw [hfirst, ← emitted_eq_headParts, hblock, hcount ls hsingle, headerLines_answer lws hprint,
      hcount _ hwhole, hlen, List.length_map]
  have hall := (eq_true_of_length_lines (forall_leaves_headParts lws payloadSize args) hclosed).2
    hsame
  intro ok hok
  obtain ⟨i, hi, rfl⟩ := List.mem_iff_getElem.mp hok
  have hi' : i < (headerLines lws args).length := by
    rwa [length_emitted_flags, ← List.length_map lws.line] at hi
  exact hall ((headerLines lws args)[i], (emitted lws payloadSize args).2[i])
    (List.mem_iff_getElem.mpr ⟨i, by simp only [List.length_zip]; omega, by simp⟩)

/-- **Which answers a client reads.** For supplied headers that can be printed as they
are, `SendResponse` sends bytes that a client takes as the answer, whatever follows them,
exactly when the body makes up for the room that the estimate is short of, the supplied
headers name no transfer coding and no other length, and the converted text has as many
bytes as it has TCHARs. -/
theorem client_reads_answer_iff (hstatus : StatusUnframed lws) (self : ULwsRequest)
    {args : ResponseArgs} (hprint : ∀ h ∈ suppliedHeaders args, h.Printable) :
    (∃ r bytes, sendResponseInt lws self args = some r ∧ sentBytes [] r.calls = some bytes ∧
      Delimits responseLength bytes (answerMessage lws args)) ↔ Sendable lws args := by
  constructor
  · rintro ⟨r, bytes, hr, hsent, hdelimits⟩
    obtain ⟨hrange, rfl⟩ := (sendResponseInt_eq_some_iff lws self args r).mp hr
    obtain ⟨hheld, rfl⟩ := (sentBytes_answer_iff lws self _ args _).mp hsent
    obtain ⟨ls, hlen, hsingle, hmeasured, hbytes⟩ := takeMessage_eq_some (hdelimits [])
    have hbody : (answerMessage lws args).body.length = args.inResponse.len := by
      rw [answerMessage, List.length_take, Nat.min_eq_left hheld]
    have hblock : (emitted lws (calculcatePayloadSize lws args) args).1 =
        print (answerMessage lws args).start ls := by
      rw [List.append_nil, List.append_nil] at hbytes
      exact List.append_cancel_right hbytes
    have hfit := (emitted_ok_iff lws _ args).mp
      (emitted_ok_of_head lws hprint hlen hsingle hblock)
    rw [hbody] at hmeasured
    obtain ⟨hplain, hlengths⟩ := (responseLength_answer_iff lws hstatus hprint).mp hmeasured
    exact ⟨(bodyCovers_iff_fit lws args).mpr ⟨hrange, hfit⟩, hprint, hplain, hlengths, hheld⟩
  · intro h
    obtain ⟨hrange, hfit⟩ := (bodyCovers_iff_fit lws args).mp h.covers
    refine ⟨_, _, if_pos hrange, (sentBytes_answer_iff lws self _ args _).mpr ⟨h.held, rfl⟩, ?_⟩
    rw [emitted_of_fit lws hfit]
    exact delimits_answer lws hstatus h

/-- The text of 64 letters is read, one of four letters is not. -/
theorem letters_read_iff_long :
    (∃ r bytes, sendResponseInt Lws.plain (.newObject timeRequest.params)
        (.plainText (List.replicate 64 120)) = some r ∧ sentBytes [] r.calls = some bytes ∧
      Delimits responseLength bytes
        (answerMessage Lws.plain (.plainText (List.replicate 64 120)))) ∧
    ¬∃ r bytes, sendResponseInt Lws.plain (.newObject timeRequest.params)
        (.plainText (text "noon")) = some r ∧ sentBytes [] r.calls = some bytes ∧
      Delimits responseLength bytes (answerMessage Lws.plain (.plainText (text "noon"))) := by
  have hstatus : StatusUnframed Lws.plain := by simp [StatusUnframed, Lws.plain]
  constructor
  · exact (client_reads_answer_iff Lws.plain hstatus _ (by decide)).mpr sendable_letters
  · intro hread
    have h := (client_reads_answer_iff Lws.plain hstatus _ (by decide)).mp hread
    exact absurd h.covers.covered (by decide)

end HttpLws
