import HttpLws.Handlers
import HttpLws.UrlParam
import HttpLws.UrlParameters

/-!
# Listed arguments and single ones

`GetAllUrlParameters` lists the arguments of a request, and `GetUrlParam` reads one of
them. Of a repeated name the list has the last argument and the single read returns
the first one. A listed name is made of the bytes of the argument one by one, while
a name that is asked for is converted to UTF-8.
-/

namespace HttpLws

open Unicode FirstMatch

variable (conv : AnsiConversion)

/-- The bytes that the library looks for when the name of a listed argument is asked for. -/
def UrlArg.asked (a : UrlArg) : List UInt8 := utf8 (decode16 (a.pair conv).1)

/-- The first argument that is found under the listed name of `c` has the listed value. -/
def ListedFirst (args : List UrlArg) (c : UrlArg) : Prop :=
  ∃ b, IsFirst (fun a => a.name = c.asked conv) args b ∧
    b.value.map conv.widen = c.value.map conv.widen

/-- The getter has returned true with this value. -/
def Returns {α : Type} (r : Option (GetResult α)) (value : α) : Prop :=
  ∃ got, r = some got ∧ got.result = true ∧ got.out = value

/-- A listed name without NUL and equals sign is asked for without them. -/
theorem UrlArg.asked_plain {a : UrlArg} (hzero : 0 ∉ a.name) :
    0 ∉ a.asked conv ∧ 61 ∉ a.asked conv := by
  obtain ⟨-, hequals, hnul⟩ := separators_not_mem_iff conv a.name
  constructor
  · exact zero_not_mem_utf8 (nul_not_mem_decode16 (hnul.mpr hzero))
  · intro hmem
    have hequal : '=' ∈ decode16 (a.name.map conv.widen) :=
      mem_of_mem_utf8 (by decide) hmem
    exact hequals.mpr a.equals_not_mem (mem_of_mem_decode16 (by decide) (by decide) hequal)

/-- What `GetUrlParam` hands to the library for a listed name. -/
theorem argumentName_pair {a : UrlArg} (hzero : 0 ∉ a.name) :
    argumentName (a.pair conv).1 = a.asked conv ++ [61] := by
  obtain ⟨-, -, hnul⟩ := separators_not_mem_iff conv a.name
  have hunits : 0 ∉ (a.pair conv).1 ++ text "=" := by
    rw [List.mem_append, not_or]
    exact ⟨hnul.mpr hzero, by decide⟩
  have hname : decode16 ((a.pair conv).1 ++ text "=") = decode16 (a.pair conv).1 ++ ['='] :=
    decode16_append_utf16 _ ['=']
  rw [argumentName, takeWhile_tcharToUtf8, cString_of_zero_not_mem hunits, hname, utf8_append,
    UrlArg.asked]
  rfl

/-- **The name asked for** is that of the argument exactly when the argument's name is ASCII. -/
theorem UrlArg.asked_eq_name_iff (a : UrlArg) :
    a.asked conv = a.name ↔ ∀ b ∈ a.name, b.toNat < 0x80 := by
  constructor
  · intro hname
    have hlength : (utf8 (decode16 (a.pair conv).1)).length = (a.pair conv).1.length := by
      rw [← UrlArg.asked, hname, UrlArg.pair, List.length_map]
    have hascii := (length_le_utf8_decode16 (a.pair conv).1).2 hlength
    intro b hb
    rw [← hname, UrlArg.asked, utf8_ascii hascii] at hb
    obtain ⟨c, hc, rfl⟩ := List.mem_map.mp hb
    have ha := hascii c hc
    unfold IsAscii at ha
    simp only [UInt8.toNat_ofNat']
    omega
  · intro hascii
    have hunits : ∀ u ∈ (a.pair conv).1, u.toNat < 0x80 := by
      intro u hu
      obtain ⟨b, hb, rfl⟩ := List.mem_map.mp hu
      rw [conv.ascii b (hascii b hb)]
      exact hascii b hb
    rw [UrlArg.asked, utf8_decode16_ascii hunits, narrow, UrlArg.pair, List.map_map]
    conv_rhs => rw [← List.map_id a.name]
    apply List.map_congr_left
    intro b hb
    rw [Function.comp_apply, conv.ascii b (hascii b hb), UInt8.ofNat_toNat, id]

/-- A text begins with a name and an equals sign when it is the argument of that name. -/
theorem isPrefixOf_fragment_iff {name : List UInt8} (hequals : 61 ∉ name) (a : UrlArg) :
    (name ++ [61]).isPrefixOf a.fragment = true ↔ a.name = name := by
  rw [List.isPrefixOf_iff_prefix, UrlArg.fragment]
  constructor
  · rintro ⟨rest, hrest⟩
    rw [List.append_assoc, List.singleton_append] at hrest
    have hcut := congrArg (List.takeWhile (· ≠ 61)) hrest
    rw [Terminator.takeWhile_append_cons hequals,
      Terminator.takeWhile_append_cons a.equals_not_mem] at hcut
    exact hcut.symm
  · rintro rfl
    exact ⟨a.value, by simp⟩

/-- The library finds the first argument of a name, with its value. -/
theorem urlargByName_fragments (args : List UrlArg) {name : List UInt8} (hequals : 61 ∉ name) :
    urlargByName (args.map UrlArg.fragment) (name ++ [61]) =
      (args.find? fun a => a.name = name).map fun a => (a.fragment, a.value) := by
  have hsame : (fun a : UrlArg => (name ++ [61]).isPrefixOf a.fragment) =
      fun a => decide (a.name = name) := by
    funext a
    rw [Bool.eq_iff_iff, isPrefixOf_fragment_iff hequals, decide_eq_true_eq]
  rw [urlargByName, List.find?_map, Function.comp_def, hsame, Option.map_map]
  cases hfound : args.find? fun a => decide (a.name = name) with
  | none => rfl
  | some a =>
    have hname : a.name = name := by simpa using List.find?_some hfound
    subst hname
    simp [UrlArg.fragment]

section

variable (overlong : List UInt8 → ℕ → List UInt8 × ℤ) {headers : HeaderTable}
  {params : FLwsParams} {args : List UrlArg}

/-- When all arguments fit the buffer, the library hands over the value of the first
argument that it finds. -/
theorem handedOver_pair {size : ℕ} (hfits : ∀ a ∈ args, a.fragment.length < size) {c : UrlArg}
    (hzero : 0 ∉ c.name) :
    handedOver overlong (args.map UrlArg.fragment) (c.pair conv).1 size =
      (args.find? fun a => a.name = c.asked conv).map UrlArg.value := by
  have hequals := (c.asked_plain conv hzero).2
  rw [handedOver, argumentName_pair conv hzero, lwsGetUrlargByNameSafe,
    urlargByName_fragments args hequals]
  cases hfound : args.find? fun a => decide (a.name = c.asked conv) with
  | none => simp
  | some a =>
    have hfit := hfits a (List.mem_of_find?_eq_some hfound)
    simp [hfit]

/-- A listed argument is read under its listed name exactly when the first argument that
is found there has its value. -/
theorem returns_getUrlParam_iff (hreason : params.Readable) (bufferSize : ℤ) (value : FString)
    (hfits : ∀ a ∈ args, a.fragment.length < bufferBytes bufferSize) {c : UrlArg}
    (hplain : c.Plain) :
    Returns (getUrlParam conv overlong (args.map UrlArg.fragment) params value (c.pair conv).1
      bufferSize) (c.pair conv).2 ↔ ListedFirst conv args c := by
  rw [getUrlParam_eq conv _ _ _ _ _ hreason,
    handedOver_pair conv overlong hfits hplain.name_plain.2, Option.map_map]
  have hfirst : ∀ b, args.find? (fun a => decide (a.name = c.asked conv)) = some b ↔
      IsFirst (fun a => a.name = c.asked conv) args b :=
    fun b => find?_eq_some_iff fun a _ => decide_eq_true_iff
  constructor
  · rintro ⟨got, hgot, hresult, hout⟩
    obtain ⟨b, hb, rfl⟩ := Option.map_eq_some_iff.mp hgot
    refine ⟨b, (hfirst b).mp hb, ?_⟩
    rw [Function.comp_apply] at hresult hout
    split_ifs at hresult hout with hempty
    exact hout
  · rintro ⟨b, hb, hvalue⟩
    have hempty : b.value ≠ [] := by
      intro hnil
      rw [hnil, List.map_nil, eq_comm, List.map_eq_nil_iff] at hvalue
      exact hplain.value_ne_nil hvalue
    rw [(hfirst b).mpr hb, Option.map_some, Function.comp_apply, if_neg hempty]
    exact ⟨_, rfl, rfl, hvalue⟩

/-- What the listing holds when the arguments are readable. -/
theorem getAllUrlParameters_lists (hreason : params.Readable)
    (hstored : headers .wsiTokenHttpUriArgs = uriArgs args) (hlasts : LastsReadable conv args)
    (hharmless : SplitsHarmless conv args) (hne : args ≠ []) (outParams : FStringMap FString) :
    ∃ m, getAllUrlParameters conv headers params outParams = some m ∧ m.result = true ∧
      ∀ p, p ∈ m.out.pairs ↔ p ∈ (lastArgs args).map (UrlArg.pair conv) := by
  have hsome : headers .wsiTokenHttpUriArgs ≠ [] := by
    rw [hstored]
    exact uriArgs_ne_nil hne
  refine ⟨_, getAllUrlParameters_eq conv outParams hreason hsome, rfl, fun p => ?_⟩
  rw [hstored, parseIntoArray_uriArgs, KeyedMap.mem_addAll_empty_iff]
  exact isLast_piecePairs_of_harmless conv hlasts hharmless p

/-- **The list and the single reads.** For arguments that `GetAllUrlParameters` can list
and a buffer that each of them fits, every listed pair is what `GetUrlParam` returns for
its key if and only if the first argument found under each listed name has the listed,
that is the last, value. The name that is looked up is the one the argument came with
exactly if this name is ASCII. -/
theorem listed_params_read_iff (hreason : params.Readable)
    (hstored : headers .wsiTokenHttpUriArgs = uriArgs args) (hlasts : LastsReadable conv args)
    (hharmless : SplitsHarmless conv args) (bufferSize : ℤ)
    (hfits : ∀ a ∈ args, a.fragment.length < bufferBytes bufferSize)
    (outParams : FStringMap FString) (value : FString) :
    ((∀ m, getAllUrlParameters conv headers params outParams = some m → m.result = true →
        ∀ p ∈ m.out.pairs, Returns (getUrlParam conv overlong (args.map UrlArg.fragment) params
          value p.1 bufferSize) p.2) ↔
      ∀ c ∈ lastArgs args, ListedFirst conv args c) ∧
    ∀ c ∈ lastArgs args, c.asked conv = c.name ↔ ∀ b ∈ c.name, b.toNat < 0x80 := by
  refine ⟨?_, fun c _ => c.asked_eq_name_iff conv⟩
  have hread : ∀ c ∈ lastArgs args, Returns (getUrlParam conv overlong
      (args.map UrlArg.fragment) params value (c.pair conv).1 bufferSize) (c.pair conv).2 ↔
        ListedFirst conv args c :=
    fun c hc => returns_getUrlParam_iff conv overlong hreason bufferSize value hfits
      (hlasts.plain c hc)
  by_cases hne : args = []
  · subst hne
    rw [getAllUrlParameters_nil conv params hreason hstored]
    refine iff_of_true ?_ (by simp [lastArgs])
    intro m hm hresult
    obtain rfl := Option.some.inj hm
    cases hresult
  · obtain ⟨m, hm, hresult, hpairs⟩ := getAllUrlParameters_lists conv hreason hstored hlasts
      hharmless hne outParams
    constructor
    · intro hall c hc
      have hpair := (hpairs _).mpr (List.mem_map_of_mem hc)
      exact (hread c hc).mp (hall m hm hresult _ hpair)
    · intro hfirst m' hm' _ p hp
      obtain rfl : m = m' := Option.some.inj (hm.symm.trans hm')
      obtain ⟨c, hc, rfl⟩ := List.mem_map.mp ((hpairs p).mp hp)
      exact (hread c hc).mpr (hfirst c hc)

/-- Plain arguments whose names differ also without case can be listed. -/
theorem listable_of_plain (hplain : ∀ a ∈ args, a.Plain)
    (hapart : ∀ a ∈ args, ∀ b ∈ args, a.name ≠ b.name →
      FString.lower (a.pair conv).1 ≠ FString.lower (b.pair conv).1) :
    LastsReadable conv args ∧ SplitsHarmless conv args := by
  have hlasts : LastsReadable conv args :=
    ⟨fun a ha => hplain a (mem_of_mem_lastArgs ha), fun a ha b hb =>
      hapart a (mem_of_mem_lastArgs ha) b (mem_of_mem_lastArgs hb)⟩
  refine ⟨hlasts, splitsHarmless_of_unsplit conv hlasts fun a ha => ?_⟩
  obtain ⟨⟨hname, hnameZero⟩, ⟨hvalue, -, hvalueZero⟩, -⟩ := hplain a ha
  simp only [UrlArg.fragment, List.mem_append, List.mem_cons, not_or]
  exact ⟨⟨hname, by decide, hvalue⟩, hnameZero, by decide, hvalueZero⟩

end

/-- The argument `id=8`. -/
def idEight : UrlArg := { idSeven with value := ascii "8" }

/-- Of `id=7`, the listed value is the one that is read. Of `id=8&id=7`, it is not. -/
theorem repeated_id_not_read :
    ((∀ m, getAllUrlParameters .latin1 (storedArgs [idSeven]) timeRequest.params .empty =
        some m → m.result = true → ∀ p ∈ m.out.pairs,
          Returns (getUrlParam .latin1 (fun _ _ => ([], -1)) ([idSeven].map UrlArg.fragment)
            timeRequest.params [] p.1 0) p.2)) ∧
      ¬∀ m, getAllUrlParameters .latin1 (storedArgs [idEight, idSeven]) timeRequest.params .empty =
        some m → m.result = true → ∀ p ∈ m.out.pairs,
          Returns (getUrlParam .latin1 (fun _ _ => ([], -1))
            ([idEight, idSeven].map UrlArg.fragment) timeRequest.params [] p.1 0) p.2 := by
  have hname : ∀ a ∈ [idEight, idSeven], a.name = ascii "id" := by decide
  have hplain : ∀ a ∈ [idEight, idSeven], a.Plain := by
    intro a ha
    simp only [List.mem_cons, List.not_mem_nil, or_false] at ha
    rcases ha with rfl | rfl
    · exact ⟨by decide, by decide, by decide⟩
    · exact ⟨by decide, by decide, by decide⟩
  have hlistable : ∀ args : List UrlArg, args ⊆ [idEight, idSeven] →
      LastsReadable .latin1 args ∧ SplitsHarmless .latin1 args := by
    intro args hsub
    apply listable_of_plain .latin1 fun a ha => hplain a (hsub ha)
    intro a ha b hb hne
    exact absurd ((hname a (hsub ha)).trans (hname b (hsub hb)).symm) hne
  obtain ⟨hlasts, hharmless⟩ := hlistable [idSeven] (by simp)
  obtain ⟨hlasts', hharmless'⟩ := hlistable [idEight, idSeven] (List.Subset.refl _)
  constructor
  · rw [(listed_params_read_iff .latin1 (fun _ _ => ([], -1)) (Or.inl rfl) (by decide) hlasts
      hharmless 0 (by decide) .empty []).1]
    intro c hc
    obtain rfl : c = idSeven := by simpa [lastArgs] using hc
    exact ⟨idSeven, isFirst_cons_iff.mpr (Or.inl ⟨rfl, by decide⟩), rfl⟩
  · rw [(listed_params_read_iff .latin1 (fun _ _ => ([], -1)) (Or.inl rfl) (by decide) hlasts'
      hharmless' 0 (by decide) .empty []).1]
    intro hall
    obtain ⟨b, hb, hvalue⟩ := hall idSeven (by simp [lastArgs, idSeven, idEight])
    have hfirst : IsFirst (fun a : UrlArg => a.name = idSeven.asked .latin1) [idEight, idSeven]
        idEight := isFirst_cons_iff.mpr (Or.inl ⟨rfl, by decide⟩)
    rw [hb.unique hfirst] at hvalue
    exact absurd hvalue (by decide)

end HttpLws
