import HttpLws.Lib.FieldLines
import HttpLws.HeaderLines

/-!
# The field names of a response

`SendResponse` prints three headers of its own and one header for each entry of
the two maps that has a non-empty value. Each map keeps its own keys apart, but
nobody compares the three sources. The names on the printed lines are pairwise
different exactly when the supplied headers stay away from the fixed names and
from each other.
-/

namespace HttpLws

open Unicode HeaderBlock

variable (lws : Lws)

/-- The header calls among some calls. -/
def headersOf (calls : List LwsCall) : List HeaderCall :=
  calls.filterMap fun
    | .header call _ => some call
    | _ => none

/-- The field lines that a header call adds for the plugin. What the status call
adds of its own is not counted. -/
def addedLines : HeaderCall → List (List UInt8)
  | .lwsAddHttpHeaderStatus _ => []
  | call => fieldLines (lws.line call)

/-- The field lines that the header calls of a response add. -/
def responseLines (calls : List LwsCall) : List (List UInt8) :=
  (headersOf calls).flatMap (addedLines lws)

/-- The field lines that a supplied header prints. -/
def suppliedLines (h : SuppliedHeader) : List (List UInt8) := fieldLines (suppliedContent lws h)

/-- The names on the lines that a supplied header prints. -/
def suppliedNames (h : SuppliedHeader) : List (List UInt8) := (suppliedLines lws h).map lineName

/-- The names of the headers that every response has. -/
def fixedNames : List (List UInt8) :=
  [ascii "access-control-allow-origin", ascii "content-type", ascii "content-length"]

/-- The supplied headers stay away from the fixed names and from each other. -/
structure NamesApart (args : ResponseArgs) : Prop where
  /-- No supplied header prints a name twice. -/
  once : ∀ h ∈ suppliedHeaders args, (suppliedNames lws h).Nodup
  /-- No supplied header prints a fixed name. -/
  notFixed : ∀ h ∈ suppliedHeaders args, ∀ name ∈ suppliedNames lws h, name ∉ fixedNames
  /-- No two supplied headers print the same name. -/
  apart : (suppliedHeaders args).Pairwise
    fun h h' => ∀ name ∈ suppliedNames lws h, name ∉ suppliedNames lws h'

/-- The name that a supplied header has by its key. -/
def headerName : SuppliedHeader → List UInt8
  | .custom key _ => (narrow key).map lowerByte
  | .known header _ => lineName (lws.lwsTokenToString (bpHeadersToLws header))

/-- The keys of the two maps stay away from the fixed names and from each other;
entries with an empty value do not count. -/
structure KeysApart (args : ResponseArgs) : Prop where
  /-- No known header is one of the fixed ones, or `NONE`, which stands for content-type. -/
  known : ∀ h ∈ args.inKnownHeaders.pairs, h.2 ≠ [] →
    h.1 ∉ [.none, .lwsHeaderContentType, .lwsHeaderContentLenght, .lwsHeaderAccessControlOrigin]
  /-- No custom key is a fixed name. -/
  custom : ∀ h ∈ args.inCustomHeaders.pairs, h.2 ≠ [] →
    headerName lws (.custom h.1 h.2) ∉ fixedNames
  /-- No custom key is the name of a known header. -/
  both : ∀ h ∈ args.inCustomHeaders.pairs, h.2 ≠ [] →
    ∀ k ∈ args.inKnownHeaders.pairs, k.2 ≠ [] →
      headerName lws (.custom h.1 h.2) ≠ headerName lws (.known k.1 k.2)

/-- The header calls recorded for a response are those of its arguments. -/
theorem headersOf_sendResponseFrom (self : ULwsRequest) (payloadSize : ℤ) (args : ResponseArgs) :
    headersOf (sendResponseFrom lws self payloadSize args).calls = headerCalls args := by
  have hzip : ∀ (calls : List HeaderCall) (flags : List Bool), flags.length = calls.length →
      headersOf (List.zipWith .header calls flags) = calls := by
    intro calls
    induction calls with
    | nil => intro flags _; simp [headersOf]
    | cons call calls ih =>
      intro flags hlen
      cases flags with
      | nil => simp at hlen
      | cons flag flags =>
        have hrest := ih flags (by simpa using hlen)
        simpa [headersOf] using hrest
  rw [sendResponseFrom_calls, headersOf, List.filterMap_append, ← headersOf,
    hzip _ _ (length_emitted_flags lws payloadSize args)]
  simp

/-- The lines added by the calls that a loop over headers makes. -/
theorem flatMap_addedLines_filterMap {α : Type} {call : α → Option HeaderCall}
    {supply : α → SuppliedHeader}
    (hline : ∀ a, (call a).map lws.line = if (supply a).value ≠ [] then
      some (closed (suppliedContent lws (supply a))) else none)
    (hstatus : ∀ a code, call a ≠ some (.lwsAddHttpHeaderStatus code)) (as : List α) :
    (as.filterMap call).flatMap (addedLines lws) =
      ((as.map supply).filter (·.value ≠ [])).flatMap (suppliedLines lws) := by
  have hadded : (as.filterMap call).flatMap (addedLines lws) =
      ((as.filterMap call).map lws.line).flatMap fieldLines := by
    rw [List.flatMap_map]
    refine List.flatMap_congr fun c hc => ?_
    obtain ⟨a, _, ha⟩ := List.mem_filterMap.mp hc
    cases c with
    | lwsAddHttpHeaderStatus code => exact absurd ha (hstatus a code)
    | _ => rfl
  rw [hadded, map_line_filterMap lws hline, List.flatMap_map]
  simp only [fieldLines_closed]
  rfl

/-- The loops over the two maps make no status call. -/
theorem customHeaderCall_ne_status (h : FString × FString) (code : ℕ) :
    customHeaderCall h ≠ some (.lwsAddHttpHeaderStatus code) := by
  unfold customHeaderCall
  split_ifs <;> simp

theorem knownHeaderCall_ne_status (h : ELwsKnownHeaders × FString) (code : ℕ) :
    knownHeaderCall h ≠ some (.lwsAddHttpHeaderStatus code) := by
  unfold knownHeaderCall
  split_ifs <;> simp

/-- The fixed headers are one line each. -/
theorem flatMap_addedLines_fixed (args : ResponseArgs) :
    [HeaderCall.lwsAddHttpHeaderStatus httpStatusOk,
      .lwsAddHttpHeaderByToken .wsiTokenHttpAccessControlAllowOrigin (ascii "*" ++ [0]) 1,
      .lwsAddHttpHeaderByToken .wsiTokenHttpContentType
        ((contentTypeString args.inType).text ++ [0]) (contentTypeString args.inType).lenght,
      .lwsAddHttpHeaderContentLength args.inResponse.len].flatMap (addedLines lws) =
      (fixedFields args).map fieldContent := by
  obtain ⟨horigin, htype, hlength⟩ := lws.lwsTokenToString_fixed
  have hstar : lws.copy (ascii "*" ++ [0]) 1 = ascii "*" :=
    lws.copy_append_of_length (ascii "*") [0]
  have htext : lws.copy ((contentTypeString args.inType).text ++ [0])
      (contentTypeString args.inType).lenght = (contentTypeString args.inType).text := by
    rw [contentTypeString_lenght]
    exact lws.copy_append_of_length _ [0]
  have hline : ∀ f ∈ fixedFields args, fieldLines (closed (fieldContent f)) = [fieldContent f] := by
    intro f hf
    obtain ⟨hname, hvalue⟩ := fixedFields_valid args f hf
    rw [fieldLines_closed, fieldLines_fieldContent (parseField_fieldContent hname hvalue).1]
  simp only [fixedFields, List.forall_mem_cons, fieldContent] at hline
  obtain ⟨hline1, hline2, hline3, -⟩ := hline
  simp only [List.flatMap_cons, List.flatMap_nil, addedLines, Lws.line, horigin, htype, hlength,
    hstar, htext, List.append_assoc, List.singleton_append, hline1, hline2, hline3]
  rfl

/-- **The lines of a response**: the three fixed ones, then those of the supplied headers. -/
theorem responseLines_sendResponseFrom (self : ULwsRequest) (payloadSize : ℤ)
    (args : ResponseArgs) :
    responseLines lws (sendResponseFrom lws self payloadSize args).calls =
      (fixedFields args).map fieldContent ++
        (suppliedHeaders args).flatMap (suppliedLines lws) := by
  have hblank : addedLines lws .lwsFinalizeHttpHeader = [] := rfl
  rw [responseLines, headersOf_sendResponseFrom, headerCalls]
  simp only [List.flatMap_append, flatMap_addedLines_fixed,
    flatMap_addedLines_filterMap lws (map_line_customHeaderCall lws) customHeaderCall_ne_status,
    flatMap_addedLines_filterMap lws (map_line_knownHeaderCall lws) knownHeaderCall_ne_status,
    List.flatMap_singleton, hblank, List.append_nil]
  rw [suppliedHeaders, List.filter_append, List.flatMap_append, List.append_assoc]

/-- The names on the lines of a response. -/
theorem map_lineName_responseLines (self : ULwsRequest) (payloadSize : ℤ) (args : ResponseArgs) :
    (responseLines lws (sendResponseFrom lws self payloadSize args).calls).map lineName =
      fixedNames ++ (suppliedHeaders args).flatMap (suppliedNames lws) := by
  have hfixed : ((fixedFields args).map fieldContent).map lineName = fixedNames := by
    rw [List.map_map]
    have hname : ∀ f ∈ fixedFields args,
        (lineName ∘ fieldContent) f = f.name.map lowerByte := fun f hf =>
      lineName_fieldContent (fixedFields_valid args f hf).1
    rw [List.map_congr_left hname]
    rfl
  rw [responseLines_sendResponseFrom, List.map_append, hfixed, List.map_flatMap]
  rfl

/-- The names are pairwise different when the supplied headers stay apart. -/
theorem nodup_names_iff (args : ResponseArgs) :
    (fixedNames ++ (suppliedHeaders args).flatMap (suppliedNames lws)).Nodup ↔
      NamesApart lws args := by
  have hfixed : fixedNames.Nodup := by decide
  rw [List.nodup_append', List.nodup_flatMap]
  constructor
  · rintro ⟨-, ⟨honce, hapart⟩, hdisjoint⟩
    refine ⟨honce, fun h hh name hname hmem => ?_, hapart.imp fun hd => ?_⟩
    · exact hdisjoint hmem (List.mem_flatMap.mpr ⟨h, hh, hname⟩)
    · exact fun name hname hname' => hd hname hname'
  · rintro ⟨honce, hfresh, hapart⟩
    refine ⟨hfixed, ⟨honce, hapart.imp fun hd => ?_⟩, fun name hmem hsupplied => ?_⟩
    · exact fun name hname hname' => hd name hname hname'
    · obtain ⟨h, hh, hname⟩ := List.mem_flatMap.mp hsupplied
      exact hfresh h hh name hname hmem

/-- A header that can be printed as it is has one name, that of its key. -/
theorem suppliedNames_printable {h : SuppliedHeader} (hprint : h.Printable) :
    suppliedNames lws h = [headerName lws h] := by
  have hone : ∀ f : Field, IsToken f.name → IsFieldValue f.value →
      suppliedContent lws h = fieldContent f → suppliedNames lws h = [f.name.map lowerByte] := by
    intro f hname hvalue hcontent
    rw [suppliedNames, suppliedLines, hcontent,
      fieldLines_fieldContent (parseField_fieldContent hname hvalue).1, List.map_singleton,
      lineName_fieldContent hname]
  cases h with
  | custom key value =>
    obtain ⟨hkey, hvalue⟩ := hprint
    refine hone ⟨narrow key, narrow value⟩ hkey.2 hvalue.2 ?_
    rw [suppliedContent_custom lws hkey, copy_of_printableValue lws hvalue]
  | known header value =>
    obtain ⟨name, htoken, hname⟩ := lwsTokenToString_known lws header
    have hvalue : PrintableValue value := hprint
    rw [headerName, htoken, lineName, hname.takeWhile]
    refine hone ⟨name, narrow value⟩ hname hvalue.2 ?_
    rw [suppliedContent, htoken, copy_of_printableValue lws hvalue, fieldContent,
      List.append_assoc, List.singleton_append]

/-- ASCII keys whose bytes agree without case are the same key of a map. -/
theorem lower_eq_of_narrow {s t : FString} (hs : ∀ u ∈ s, u.toNat < 0x80)
    (ht : ∀ u ∈ t, u.toNat < 0x80)
    (h : (narrow s).map lowerByte = (narrow t).map lowerByte) : s.lower = t.lower := by
  have hunit : ∀ u : TCHAR, u.toNat < 0x80 →
      UInt16.ofNat (lowerByte (UInt8.ofNat u.toNat)).toNat = lowerChar u := by
    intro u hu
    apply UInt16.toNat_inj.mp
    simp only [lowerByte, lowerChar, UInt8.le_iff_toNat_le, UInt16.le_iff_toNat_le]
    split_ifs <;> simp at * <;> omega
  have hback : ∀ r : FString, (∀ u ∈ r, u.toNat < 0x80) →
      r.lower = ((narrow r).map lowerByte).map fun b => UInt16.ofNat b.toNat := by
    intro r hr
    rw [FString.lower, narrow, List.map_map, List.map_map]
    exact (List.map_congr_left fun u hu => hunit u (hr u hu)).symm
  rw [hback s hs, hback t ht, h]

/-- The keys of known headers, apart from `NONE`. -/
def namedHeaders : List ELwsKnownHeaders :=
  [.lwsHeaderXAuthToken, .lwsHeaderAuthorization, .lwsHeaderWwwAuthorization,
    .lwsHeaderProxyAuthenticate, .lwsHeaderProxyAuthorization, .lwsHeaderAccept,
    .lwsHeaderAcceptEncoding, .lwsHeaderContentType, .lwsHeaderContentLenght, .lwsHeaderHost,
    .lwsHeaderOrigin, .lwsHeaderConnection, .lwsHeaderUserAgent, .lwsHeaderAccessControlOrigin]

/-- Every key but `NONE` is named. -/
theorem mem_namedHeaders {header : ELwsKnownHeaders} (h : header ≠ .none) :
    header ∈ namedHeaders := by
  cases header with
  | none => exact absurd rfl h
  | _ => decide

/-- The name of a known header, from the documented token strings. -/
theorem headerName_known (header : ELwsKnownHeaders) (value : FString) :
    headerName lws (.known header value) =
      lineName (ascii ((responseTokenStrings.lookup (bpHeadersToLws header)).getD "")) := by
  have hmem : (bpHeadersToLws header,
      (responseTokenStrings.lookup (bpHeadersToLws header)).getD "") ∈ responseTokenStrings := by
    cases header <;> decide
  rw [headerName, lws.tokenStrings _ hmem]

/-- Different named headers have different names. -/
theorem headerName_known_inj {header header' : ELwsKnownHeaders} {value value' : FString}
    (hne : header ≠ .none) (hne' : header' ≠ .none)
    (h : headerName lws (.known header value) = headerName lws (.known header' value')) :
    header = header' := by
  have hnodup : (namedHeaders.map fun k =>
      lineName (ascii ((responseTokenStrings.lookup (bpHeadersToLws k)).getD ""))).Nodup := by
    decide
  rw [headerName_known, headerName_known] at h
  exact List.inj_on_of_nodup_map hnodup (mem_namedHeaders hne) (mem_namedHeaders hne') h

/-- The known headers that have a fixed name. -/
theorem headerName_known_mem_fixedNames (header : ELwsKnownHeaders) (value : FString) :
    headerName lws (.known header value) ∈ fixedNames ↔
      header ∈ [.none, .lwsHeaderContentType, .lwsHeaderContentLenght,
        .lwsHeaderAccessControlOrigin] := by
  rw [headerName_known]
  cases header <;> decide

/-- The supplied headers are the entries of the two maps with a non-empty value. -/
theorem custom_mem_suppliedHeaders {args : ResponseArgs} {key value : FString} :
    .custom key value ∈ suppliedHeaders args ↔
      (key, value) ∈ args.inCustomHeaders.pairs ∧ value ≠ [] := by
  rw [suppliedHeaders, List.mem_filter, decide_eq_true_eq]
  simp [SuppliedHeader.value]

theorem known_mem_suppliedHeaders {args : ResponseArgs} {header : ELwsKnownHeaders}
    {value : FString} :
    .known header value ∈ suppliedHeaders args ↔
      (header, value) ∈ args.inKnownHeaders.pairs ∧ value ≠ [] := by
  rw [suppliedHeaders, List.mem_filter, decide_eq_true_eq]
  simp [SuppliedHeader.value]

/-- The entries of one map have different names when names tell its keys apart. -/
theorem pairwise_headerName {K N : Type} {norm : K → N} (m : KeyedMap norm FString)
    {supply : K × FString → SuppliedHeader} (hsupply : ∀ a, (supply a).value = a.2)
    (hinj : ∀ a ∈ m.pairs, ∀ b ∈ m.pairs, a.2 ≠ [] → b.2 ≠ [] →
      headerName lws (supply a) = headerName lws (supply b) → norm a.1 = norm b.1) :
    ((m.pairs.map supply).filter (·.value ≠ [])).Pairwise
      fun h h' => headerName lws h ≠ headerName lws h' := by
  have hkeys : m.pairs.Pairwise fun a b => norm a.1 ≠ norm b.1 :=
    List.pairwise_map.mp (List.nodup_iff_pairwise_ne.mp m.nodup)
  rw [List.filter_map, List.pairwise_map]
  refine (hkeys.filter _).imp_of_mem fun {a b} ha hb hne heq => ?_
  obtain ⟨ha, hvalue⟩ := List.mem_filter.mp ha
  obtain ⟨hb, hvalue'⟩ := List.mem_filter.mp hb
  simp only [Function.comp_apply, hsupply, decide_eq_true_eq] at hvalue hvalue'
  exact hne (hinj a ha b hb hvalue hvalue' heq)

/-- For headers that can be printed as they are, the names are apart exactly when
the keys' names are not fixed and pairwise different. -/
theorem namesApart_printable_iff {args : ResponseArgs}
    (hprint : ∀ h ∈ suppliedHeaders args, h.Printable) :
    NamesApart lws args ↔
      (∀ h ∈ suppliedHeaders args, headerName lws h ∉ fixedNames) ∧
        (suppliedHeaders args).Pairwise fun h h' => headerName lws h ≠ headerName lws h' := by
  have hnames : ∀ h ∈ suppliedHeaders args, suppliedNames lws h = [headerName lws h] :=
    fun h hh => suppliedNames_printable lws (hprint h hh)
  constructor
  · rintro ⟨-, hfresh, hapart⟩
    refine ⟨fun h hh => hfresh h hh _ (by simp [hnames h hh]), ?_⟩
    refine hapart.imp_of_mem fun {h h'} hh hh' hd => ?_
    have := hd (headerName lws h) (by simp [hnames h hh])
    simpa [hnames h' hh'] using this
  · rintro ⟨hfresh, hapart⟩
    refine ⟨fun h hh => by simp [hnames h hh], fun h hh name hname => ?_, ?_⟩
    · rw [hnames h hh, List.mem_singleton] at hname
      exact hname ▸ hfresh h hh
    · refine hapart.imp_of_mem fun {h h'} hh hh' hne name hname hname' => ?_
      rw [hnames h hh, List.mem_singleton] at hname
      rw [hnames h' hh', List.mem_singleton] at hname'
      exact hne (hname.symm.trans hname')

/-- The supplied headers have no fixed names when those of the two maps have none. -/
theorem headerName_not_mem_fixedNames_iff (args : ResponseArgs) :
    (∀ h ∈ suppliedHeaders args, headerName lws h ∉ fixedNames) ↔
      (∀ h ∈ args.inKnownHeaders.pairs, h.2 ≠ [] → h.1 ∉
        [.none, .lwsHeaderContentType, .lwsHeaderContentLenght, .lwsHeaderAccessControlOrigin]) ∧
        ∀ h ∈ args.inCustomHeaders.pairs, h.2 ≠ [] →
          headerName lws (.custom h.1 h.2) ∉ fixedNames := by
  constructor
  · intro hfresh
    refine ⟨fun h hh hvalue hmem => ?_, fun h hh hvalue => ?_⟩
    · apply hfresh _ (known_mem_suppliedHeaders.mpr ⟨hh, hvalue⟩)
      exact (headerName_known_mem_fixedNames lws h.1 h.2).mpr hmem
    · exact hfresh _ (custom_mem_suppliedHeaders.mpr ⟨hh, hvalue⟩)
  · rintro ⟨hknown, hcustom⟩ h hh
    cases h with
    | custom key value =>
      obtain ⟨hmem, hvalue⟩ := custom_mem_suppliedHeaders.mp hh
      exact hcustom (key, value) hmem hvalue
    | known header value =>
      obtain ⟨hmem, hvalue⟩ := known_mem_suppliedHeaders.mp hh
      rw [headerName_known_mem_fixedNames]
      exact hknown (header, value) hmem hvalue

/-- Without `NONE`, the names are pairwise different when those of one map differ from
those of the other: each map keeps its own keys apart. -/
theorem pairwise_headerName_iff {args : ResponseArgs}
    (hprint : ∀ h ∈ suppliedHeaders args, h.Printable)
    (hnamed : ∀ h ∈ args.inKnownHeaders.pairs, h.2 ≠ [] → h.1 ≠ .none) :
    ((suppliedHeaders args).Pairwise fun h h' => headerName lws h ≠ headerName lws h') ↔
      ∀ h ∈ args.inCustomHeaders.pairs, h.2 ≠ [] → ∀ k ∈ args.inKnownHeaders.pairs, k.2 ≠ [] →
        headerName lws (.custom h.1 h.2) ≠ headerName lws (.known k.1 k.2) := by
  rw [suppliedHeaders, List.filter_append, List.pairwise_append]
  constructor
  · rintro ⟨-, -, hboth⟩ h hh hvalue k hk hkvalue
    apply hboth (.custom h.1 h.2) _ (.known k.1 k.2)
    · exact List.mem_filter.mpr ⟨List.mem_map.mpr ⟨k, hk, rfl⟩, decide_eq_true hkvalue⟩
    · exact List.mem_filter.mpr ⟨List.mem_map.mpr ⟨h, hh, rfl⟩, decide_eq_true hvalue⟩
  · intro hboth
    refine ⟨?_, ?_, fun h hh h' hh' => ?_⟩
    · apply pairwise_headerName lws args.inCustomHeaders (fun _ => rfl)
      intro a ha b hb hvalue hvalue' heq
      have hprinta := hprint _ (custom_mem_suppliedHeaders.mpr ⟨ha, hvalue⟩)
      have hprintb := hprint _ (custom_mem_suppliedHeaders.mpr ⟨hb, hvalue'⟩)
      exact lower_eq_of_narrow hprinta.1.1 hprintb.1.1 heq
    · apply pairwise_headerName lws args.inKnownHeaders (fun _ => rfl)
      intro a ha b hb hvalue hvalue' heq
      exact headerName_known_inj lws (hnamed a ha hvalue) (hnamed b hb hvalue') heq
    · obtain ⟨hmem, hvalue⟩ := List.mem_filter.mp hh
      obtain ⟨hmem', hvalue'⟩ := List.mem_filter.mp hh'
      obtain ⟨a, ha, rfl⟩ := List.mem_map.mp hmem
      obtain ⟨b, hb, rfl⟩ := List.mem_map.mp hmem'
      exact hboth a ha (of_decide_eq_true hvalue) b hb (of_decide_eq_true hvalue')

/-- For headers that can be printed as they are, the names are apart exactly when the
keys are. -/
theorem namesApart_iff_keysApart {args : ResponseArgs}
    (hprint : ∀ h ∈ suppliedHeaders args, h.Printable) :
    NamesApart lws args ↔ KeysApart lws args := by
  have hnamed : (∀ h ∈ args.inKnownHeaders.pairs, h.2 ≠ [] → h.1 ∉
      [.none, .lwsHeaderContentType, .lwsHeaderContentLenght, .lwsHeaderAccessControlOrigin]) →
      ∀ h ∈ args.inKnownHeaders.pairs, h.2 ≠ [] → h.1 ≠ .none := by
    intro hknown h hh hvalue hnone
    apply hknown h hh hvalue
    simp [hnone]
  rw [namesApart_printable_iff lws hprint, headerName_not_mem_fixedNames_iff]
  constructor
  · rintro ⟨⟨hknown, hcustom⟩, hapart⟩
    exact ⟨hknown, hcustom, (pairwise_headerName_iff lws hprint (hnamed hknown)).mp hapart⟩
  · rintro ⟨hknown, hcustom, hboth⟩
    exact ⟨⟨hknown, hcustom⟩, (pairwise_headerName_iff lws hprint (hnamed hknown)).mpr hboth⟩

/-- **The names of a response.** The field lines that the header calls add have pairwise
different names, letters compared without case, exactly when the supplied headers stay away
from the fixed names and from each other. For headers that can be printed as they
are, this is a condition on the keys of the two maps. -/
theorem responseLines_names_nodup_iff (self : ULwsRequest) (payloadSize : ℤ)
    (args : ResponseArgs) :
    (((responseLines lws (sendResponseFrom lws self payloadSize args).calls).map lineName).Nodup ↔
        NamesApart lws args) ∧
      ((∀ h ∈ suppliedHeaders args, h.Printable) → (NamesApart lws args ↔ KeysApart lws args)) := by
  constructor
  · rw [map_lineName_responseLines, nodup_names_iff]
  · exact fun hprint => namesApart_iff_keysApart lws hprint

/-- The header `x-request-id: 7` is kept apart from the fixed ones. -/
theorem request_id_names_nodup :
    ((responseLines Lws.plain (sendResponse Lws.plain (.newObject ⟨1, none, 0, .lwsCallbackHttp, 0⟩)
      (oneHeader "x-request-id" "7")).calls).map lineName).Nodup := by
  have hprint : ∀ h ∈ suppliedHeaders (oneHeader "x-request-id" "7"), h.Printable := by decide
  have hkeys : KeysApart Lws.plain (oneHeader "x-request-id" "7") := by
    refine ⟨?_, ?_, ?_⟩
    · decide
    · decide
    · decide
  obtain ⟨hnames, hapart⟩ := responseLines_names_nodup_iff Lws.plain
    (.newObject ⟨1, none, 0, .lwsCallbackHttp, 0⟩)
    (calculcatePayloadSize Lws.plain (oneHeader "x-request-id" "7"))
    (oneHeader "x-request-id" "7")
  exact hnames.mpr ((hapart hprint).mpr hkeys)

/-- A body of 64 letters with the custom header `Content-Length: 5`. -/
def ownLength : ResponseArgs :=
  { ResponseArgs.plainText (List.replicate 64 120) with
    inCustomHeaders := KeyedMap.empty.add (text "Content-Length") (text "5") }

/-- All header calls succeed, and two of the lines are content-length lines. -/
theorem content_length_named_twice :
    ((sendResponse Lws.plain (.newObject ⟨1, none, 0, .lwsCallbackHttp, 0⟩) ownLength).calls.all
        fun | .header _ ok => ok | _ => true) = true ∧
      ¬((responseLines Lws.plain (sendResponse Lws.plain
        (.newObject ⟨1, none, 0, .lwsCallbackHttp, 0⟩) ownLength).calls).map lineName).Nodup := by
  decide +kernel

end HttpLws
