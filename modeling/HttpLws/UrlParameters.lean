import HttpLws.Object
import Mathlib.Data.List.Perm.Basic

/-!
# The URL arguments a request came with

The library stores every argument decoded, as `name=value`, and hands them out
joined by `&`. `GetAllUrlParameters` splits this string again, so it reads back
the arguments only when the decoded text has no separators of its own, no value is
empty and no two names are the same key of the map.
-/

namespace HttpLws

variable (conv : AnsiConversion)

/-- A decoded URL argument: its name is not empty and has no equals sign. -/
structure UrlArg where
  /-- The bytes of the name. -/
  name : List UInt8
  /-- The bytes of the value. -/
  value : List UInt8
  /-- There is a name. -/
  name_ne_nil : name ≠ []
  /-- The name ends at the first equals sign. -/
  equals_not_mem : 61 ∉ name

/-- The stored form of an argument. -/
def UrlArg.fragment (a : UrlArg) : List UInt8 := a.name ++ 61 :: a.value

/-- What is stored for the arguments of a request. -/
def uriArgs (args : List UrlArg) : List UInt8 := [38].intercalate (args.map UrlArg.fragment)

/-- The name and value of an argument as strings. -/
def UrlArg.pair (a : UrlArg) : FString × FString :=
  (a.name.map conv.widen, a.value.map conv.widen)

/-- The arguments that are not followed by one of the same name. -/
def lastArgs : List UrlArg → List UrlArg
  | [] => []
  | a :: rest => if a.name ∈ rest.map UrlArg.name then lastArgs rest else a :: lastArgs rest

/-- For a non-empty argument list the call succeeds, and the map's pairs are the
last arguments of all names, one pair for each name and no others. -/
def ReadsArguments (args : List UrlArg)
    (r : Option (GetResult (FStringMap FString))) : Prop :=
  args ≠ [] → ∃ g, r = some g ∧ g.result = true ∧
    g.out.pairs.Perm ((lastArgs args).map (UrlArg.pair conv))

/-- An argument whose text has no separator but its own, no NUL and some value. -/
structure UrlArg.Plain (a : UrlArg) : Prop where
  /-- The name has no ampersand and no NUL. -/
  name_plain : 38 ∉ a.name ∧ 0 ∉ a.name
  /-- The value has no ampersand, no equals sign and no NUL. -/
  value_plain : 38 ∉ a.value ∧ 61 ∉ a.value ∧ 0 ∉ a.value
  /-- There is a value. -/
  value_ne_nil : a.value ≠ []

/-- What the last argument of every name has to look like: plain, and under a name
that differs from every other name of the list also when case is ignored. -/
structure LastsReadable (args : List UrlArg) : Prop where
  /-- Last arguments are plain. -/
  plain : ∀ a ∈ lastArgs args, a.Plain
  /-- Different names are different keys. -/
  apart : ∀ a ∈ lastArgs args, ∀ b ∈ lastArgs args, a.name ≠ b.name →
    FString.lower (a.pair conv).1 ≠ FString.lower (b.pair conv).1

/-- The pairs read off the pieces of an argument's text, which ends at its first NUL. -/
def UrlArg.pieces (a : UrlArg) : List (FString × FString) :=
  (FString.parseIntoArray (a.fragment.map conv.widen) 38).filterMap pairOf

/-- The pairs read off the pieces of all arguments, up to the first NUL. -/
def piecePairs : List UrlArg → List (FString × FString)
  | [] => []
  | a :: rest => a.pieces conv ++ if 0 ∈ a.fragment then [] else piecePairs rest

/-- Where an argument's text falls into pieces, the pieces do no harm. -/
structure SplitsHarmless (args : List UrlArg) : Prop where
  /-- A piece that no later piece overrides repeats a last argument. -/
  said : ∀ p, KeyedMap.IsLast FString.lower (piecePairs conv args) p →
    p ∈ (lastArgs args).map (UrlArg.pair conv)
  /-- The name of every last argument is read before a NUL ends the text. -/
  reached : ∀ a ∈ lastArgs args, ∃ p ∈ piecePairs conv args,
    FString.lower p.1 = FString.lower (a.pair conv).1

/-- No argument, overridden ones included, has an ampersand or a NUL in its text. -/
def Unsplit (args : List UrlArg) : Prop := ∀ a ∈ args, 38 ∉ a.fragment ∧ 0 ∉ a.fragment

/-- The last arguments are among the arguments. -/
theorem mem_of_mem_lastArgs {args : List UrlArg} {a : UrlArg} (h : a ∈ lastArgs args) :
    a ∈ args := by
  induction args with
  | nil => simp [lastArgs] at h
  | cons b args ih =>
    rw [lastArgs] at h
    split_ifs at h
    · exact List.mem_cons_of_mem b (ih h)
    · rcases List.mem_cons.mp h with rfl | h
      · exact List.mem_cons_self
      · exact List.mem_cons_of_mem b (ih h)

/-- Every name that occurs has a last argument. -/
theorem exists_lastArgs {args : List UrlArg} {name : List UInt8}
    (h : name ∈ args.map UrlArg.name) : ∃ a ∈ lastArgs args, a.name = name := by
  induction args with
  | nil => simp at h
  | cons b args ih =>
    rw [lastArgs]
    split_ifs with hlater
    · rw [List.map_cons, List.mem_cons] at h
      rcases h with rfl | h
      · exact ih hlater
      · exact ih h
    · rw [List.map_cons, List.mem_cons] at h
      rcases h with rfl | h
      · exact ⟨b, List.mem_cons_self, rfl⟩
      · obtain ⟨a, ha, hname⟩ := ih h
        exact ⟨a, List.mem_cons_of_mem b ha, hname⟩

/-- No two last arguments have one name. -/
theorem nodup_lastArgs (args : List UrlArg) : ((lastArgs args).map UrlArg.name).Nodup := by
  induction args with
  | nil => simp [lastArgs]
  | cons b args ih =>
    rw [lastArgs]
    split_ifs with hlater
    · exact ih
    · rw [List.map_cons, List.nodup_cons]
      refine ⟨fun hmem => hlater ?_, ih⟩
      obtain ⟨a, ha, hname⟩ := List.mem_map.mp hmem
      rw [← hname]
      exact List.mem_map_of_mem (mem_of_mem_lastArgs ha)

/-- The separators and the terminator as TCHARs. -/
theorem widen_separators :
    conv.widen 38 = 38 ∧ conv.widen 61 = 61 ∧ conv.widen 0 = 0 := by
  refine ⟨?_, ?_, conv.widen_zero⟩
  · rw [conv.widen_ascii (by decide)]
    decide
  · rw [conv.widen_ascii (by decide)]
    decide

/-- Separators in a widened byte string. -/
theorem separators_not_mem_iff (bytes : List UInt8) :
    ((38 : TCHAR) ∉ bytes.map conv.widen ↔ 38 ∉ bytes) ∧
      ((61 : TCHAR) ∉ bytes.map conv.widen ↔ 61 ∉ bytes) ∧
      ((0 : TCHAR) ∉ bytes.map conv.widen ↔ 0 ∉ bytes) := by
  obtain ⟨hamp, hequals, hzero⟩ := widen_separators conv
  refine ⟨?_, ?_, ?_⟩
  · exact conv.not_mem_map_widen_iff (by decide) (by decide) hamp bytes
  · exact conv.not_mem_map_widen_iff (by decide) (by decide) hequals bytes
  · exact conv.not_mem_map_widen_iff (by decide) (by decide) hzero bytes

/-- The widened form of the stored arguments. -/
theorem map_widen_uriArgs (args : List UrlArg) :
    (uriArgs args).map conv.widen =
      [38].intercalate (args.map fun a => a.fragment.map conv.widen) := by
  unfold uriArgs
  induction args with
  | nil => simp
  | cons a args ih =>
    cases args with
    | nil => simp [List.intercalate_singleton]
    | cons b args =>
      simp only [List.map_cons] at ih ⊢
      rw [List.intercalate_cons_cons, List.intercalate_cons_cons, List.map_append,
        List.map_append, ih, List.map_singleton, (widen_separators conv).1]

/-- Arguments are stored as a non-empty string. -/
theorem uriArgs_ne_nil {args : List UrlArg} (h : args ≠ []) : uriArgs args ≠ [] := by
  obtain ⟨a, args, rfl⟩ := List.exists_cons_of_ne_nil h
  unfold uriArgs
  cases args with
  | nil => simp [List.intercalate_singleton, UrlArg.fragment]
  | cons b args =>
    simp [List.intercalate_cons_cons, UrlArg.fragment]

/-- Without a NUL, the first piece of a fragment is the name. -/
theorem parseIntoArray_fragment {a : UrlArg} (hzero : 0 ∉ a.fragment) :
    FString.parseIntoArray (a.fragment.map conv.widen) 61 =
      a.name.map conv.widen :: FString.parseIntoArray (a.value.map conv.widen) 61 := by
  have hname : 0 ∉ a.name := fun h => hzero (List.mem_append_left _ h)
  obtain ⟨_, hequals, hnul⟩ := separators_not_mem_iff conv a.name
  have hfirst : FString.parseIntoArray (a.name.map conv.widen) 61 = [a.name.map conv.widen] :=
    parseIntoArray_singleton (by simpa using a.name_ne_nil) (hequals.mpr a.equals_not_mem)
      (hnul.mpr hname)
  rw [UrlArg.fragment, List.map_append, List.map_cons, (widen_separators conv).2.1,
    parseIntoArray_append_cons (by decide), hfirst, if_neg (hnul.mpr hname),
    List.singleton_append]

/-- Whatever a fragment contributes stands under the name of its argument. -/
theorem pairOf_fragment_key {a : UrlArg} (hzero : 0 ∉ a.fragment) {e : FString × FString}
    (h : pairOf (a.fragment.map conv.widen) = some e) : e.1 = (a.pair conv).1 := by
  rw [pairOf, parseIntoArray_fragment conv hzero] at h
  cases hvalue : FString.parseIntoArray (a.value.map conv.widen) 61 with
  | nil => simp only [hvalue, reduceCtorEq] at h
  | cons v rest =>
    cases rest with
    | nil =>
      simp only [hvalue, Option.some.injEq] at h
      rw [← h, UrlArg.pair]
    | cons w rest => simp only [hvalue, reduceCtorEq] at h

/-- A plain argument contributes itself. -/
theorem pairOf_fragment_of_plain {a : UrlArg} (h : a.Plain) :
    pairOf (a.fragment.map conv.widen) = some (a.pair conv) := by
  obtain ⟨⟨_, hname⟩, ⟨_, hequals, hvalue⟩, hne⟩ := h
  have hzero : 0 ∉ a.fragment := by
    simp only [UrlArg.fragment, List.mem_append, List.mem_cons, not_or]
    exact ⟨hname, by decide, hvalue⟩
  have hpiece : FString.parseIntoArray (a.value.map conv.widen) 61 = [a.value.map conv.widen] :=
    parseIntoArray_singleton (by simpa using hne)
      ((separators_not_mem_iff conv a.value).2.1.mpr hequals)
      ((separators_not_mem_iff conv a.value).2.2.mpr hvalue)
  rw [pairOf, parseIntoArray_fragment conv hzero, hpiece, UrlArg.pair]

/-- The pieces of the stored string are those of the arguments, one after the other. -/
theorem parseIntoArray_uriArgs (args : List UrlArg) :
    (FString.parseIntoArray ((uriArgs args).map conv.widen) 38).filterMap pairOf =
      piecePairs conv args := by
  rw [map_widen_uriArgs]
  induction args with
  | nil => simp [piecePairs, FString.parseIntoArray, FString.cString]
  | cons a args ih =>
    have hzero : (0 : TCHAR) ∈ a.fragment.map conv.widen ↔ 0 ∈ a.fragment :=
      not_iff_not.mp (separators_not_mem_iff conv a.fragment).2.2
    cases args with
    | nil =>
      rw [List.map_singleton, List.intercalate_singleton, piecePairs, piecePairs, ite_self,
        List.append_nil, UrlArg.pieces]
    | cons b args =>
      rw [List.map_cons] at ih
      rw [List.map_cons, List.map_cons, List.intercalate_cons_cons, List.append_assoc,
        List.singleton_append, parseIntoArray_append_cons (by decide), List.filterMap_append,
        piecePairs, UrlArg.pieces]
      simp only [hzero]
      split_ifs
      · rw [List.filterMap_nil]
      · rw [ih]

/-- An argument whose text is a single piece contributes what that piece says. -/
theorem piecePairs_cons_of_unsplit {a : UrlArg} (hamp : 38 ∉ a.fragment) (hzero : 0 ∉ a.fragment)
    (args : List UrlArg) :
    piecePairs conv (a :: args) =
      (pairOf (a.fragment.map conv.widen)).toList ++ piecePairs conv args := by
  obtain ⟨hamp', _, hzero'⟩ := separators_not_mem_iff conv a.fragment
  have hpiece : FString.parseIntoArray (a.fragment.map conv.widen) 38 =
      [a.fragment.map conv.widen] :=
    parseIntoArray_singleton (by simp [UrlArg.fragment]) (hamp'.mpr hamp) (hzero'.mpr hzero)
  rw [piecePairs, if_neg hzero, UrlArg.pieces, hpiece]
  cases hpair : pairOf (a.fragment.map conv.widen) <;> simp [hpair]

/-- A last argument of the rest is a last argument. -/
theorem mem_lastArgs_cons_of_mem {a b : UrlArg} {args : List UrlArg} (hb : b ∈ lastArgs args) :
    b ∈ lastArgs (a :: args) := by
  rw [lastArgs]
  split_ifs
  · exact hb
  · exact List.mem_cons_of_mem a hb

variable {conv} in
/-- If the last arguments are readable, so are those of the rest. -/
theorem LastsReadable.tail {a : UrlArg} {args : List UrlArg} (h : LastsReadable conv (a :: args)) :
    LastsReadable conv args where
  plain b hb := h.plain b (mem_lastArgs_cons_of_mem hb)
  apart b hb c hc := h.apart b (mem_lastArgs_cons_of_mem hb) c (mem_lastArgs_cons_of_mem hc)

/-- **What survives the loop.** When the last arguments are readable and no argument
splits, the pairs that no later pair overrides are the last arguments. -/
theorem isLast_piecePairs_iff {args : List UrlArg} (hlasts : LastsReadable conv args)
    (hunsplit : Unsplit args) (p : FString × FString) :
    KeyedMap.IsLast FString.lower (piecePairs conv args) p ↔
      p ∈ (lastArgs args).map (UrlArg.pair conv) := by
  induction args generalizing p with
  | nil => simp [piecePairs, lastArgs, KeyedMap.IsLast]
  | cons a args ih =>
    obtain ⟨⟨hamp, hzero⟩, hunsplit'⟩ := List.forall_mem_cons.mp hunsplit
    have ih := fun p => ih hlasts.tail hunsplit' p
    rw [piecePairs_cons_of_unsplit conv hamp hzero]
    by_cases hlater : a.name ∈ args.map UrlArg.name
    · -- A later argument has the name, so the contribution of this one is overwritten.
      rw [lastArgs, if_pos hlater, ← ih]
      obtain ⟨b, hb, hname⟩ := exists_lastArgs hlater
      have hmem := ((ih (b.pair conv)).mpr (List.mem_map_of_mem hb)).mem
      apply KeyedMap.isLast_toList_append_iff
      intro e he
      refine ⟨b.pair conv, hmem, ?_⟩
      rw [pairOf_fragment_key conv hzero he, UrlArg.pair, UrlArg.pair, hname]
    · have hself : a ∈ lastArgs (a :: args) := by
        rw [lastArgs, if_neg hlater]
        exact List.mem_cons_self
      have hapart : ∀ q ∈ piecePairs conv args,
          FString.lower q.1 ≠ FString.lower (a.pair conv).1 := by
        intro q hq heq
        obtain ⟨r, hr, hkey⟩ := KeyedMap.exists_isLast FString.lower hq
        obtain ⟨b, hb, rfl⟩ := List.mem_map.mp ((ih r).mp hr)
        have hb' := mem_lastArgs_cons_of_mem (a := a) hb
        refine hlasts.apart b hb' a hself (fun hname => hlater ?_) (hkey.trans heq)
        rw [← hname]
        exact List.mem_map_of_mem (mem_of_mem_lastArgs hb)
      rw [lastArgs, if_neg hlater, pairOf_fragment_of_plain conv (hlasts.plain a hself),
        Option.toList_some, List.singleton_append, KeyedMap.isLast_cons_iff, List.map_cons,
        List.mem_cons, ← ih]
      exact or_congr_left (and_iff_left hapart)

/-- Without ampersands and NULs in the texts there are no harmful pieces. -/
theorem splitsHarmless_of_unsplit {args : List UrlArg} (hlasts : LastsReadable conv args)
    (hunsplit : Unsplit args) : SplitsHarmless conv args := by
  have hiff := isLast_piecePairs_iff conv hlasts hunsplit
  refine ⟨fun p => (hiff p).mp, fun a ha => ⟨a.pair conv, ?_, rfl⟩⟩
  exact ((hiff _).mpr (List.mem_map_of_mem ha)).mem

/-- When the names are apart and the pieces harmless, the pairs that no later pair
overrides are the last arguments. -/
theorem isLast_piecePairs_of_harmless {args : List UrlArg} (hlasts : LastsReadable conv args)
    (hharmless : SplitsHarmless conv args) (p : FString × FString) :
    KeyedMap.IsLast FString.lower (piecePairs conv args) p ↔
      p ∈ (lastArgs args).map (UrlArg.pair conv) := by
  refine ⟨hharmless.said p, fun hp => ?_⟩
  obtain ⟨a, ha, rfl⟩ := List.mem_map.mp hp
  obtain ⟨q, hq, hqa⟩ := hharmless.reached a ha
  obtain ⟨r, hr, hrq⟩ := KeyedMap.exists_isLast FString.lower hq
  -- The piece that is read last under the name is a last argument, so it is this one.
  obtain ⟨b, hb, rfl⟩ := List.mem_map.mp (hharmless.said r hr)
  have hname : b.name = a.name := by
    by_contra hne
    exact hlasts.apart b hb a ha hne (hrq.trans hqa)
  rwa [← List.inj_on_of_nodup_map (nodup_lastArgs args) hb ha hname]

/-- A pair that is contributed by any piece of the stored string has a plain form. -/
theorem plain_of_pair_mem {s : FString} {a : UrlArg}
    (h : a.pair conv ∈ (FString.parseIntoArray s 38).filterMap pairOf) : a.Plain := by
  obtain ⟨piece, hpiece, hpair⟩ := List.mem_filterMap.mp h
  obtain ⟨_, hamp, _, _⟩ := of_mem_parseIntoArray hpiece
  have hsections : FString.parseIntoArray piece 61 =
      [a.name.map conv.widen, a.value.map conv.widen] := by
    unfold pairOf at hpair
    split at hpair
    · next name value hparse =>
      obtain ⟨rfl, rfl⟩ := Prod.mk.inj (Option.some.inj hpair)
      exact hparse
    · cases hpair
  obtain ⟨_, _, hname0, hname⟩ := of_mem_parseIntoArray
    (hsections ▸ List.mem_cons_self : a.name.map conv.widen ∈ FString.parseIntoArray piece 61)
  obtain ⟨hne, hvalue1, hvalue0, hvalue⟩ := of_mem_parseIntoArray
    (hsections ▸ List.mem_cons_of_mem _ List.mem_cons_self :
      a.value.map conv.widen ∈ FString.parseIntoArray piece 61)
  obtain ⟨hnamp, _, hnzero⟩ := separators_not_mem_iff conv a.name
  obtain ⟨hvamp, hvequals, hvzero⟩ := separators_not_mem_iff conv a.value
  exact ⟨⟨hnamp.mp fun hmem => hamp (hname _ hmem), hnzero.mp hname0⟩,
    ⟨hvamp.mp fun hmem => hamp (hvalue _ hmem), hvequals.mp hvalue1, hvzero.mp hvalue0⟩,
    by simpa using hne⟩

/-- Where texts fall apart, the arguments are read back exactly when the last argument of
every name is plain, the names differ also without case, and the pieces do no harm. -/
theorem readsArguments_iff_harmless {headers : HeaderTable} {params : FLwsParams}
    (outParams : FStringMap FString) {args : List UrlArg}
    (hreason : params.reason = .lwsCallbackHttp ∨ params.reason = .lwsCallbackHttpBody)
    (hstored : headers .wsiTokenHttpUriArgs = uriArgs args) :
    ReadsArguments conv args (getAllUrlParameters conv headers params outParams) ↔
      LastsReadable conv args ∧ SplitsHarmless conv args := by
  by_cases hne : args = []
  · subst hne
    have hlasts : LastsReadable conv [] := ⟨by simp [lastArgs], by simp [lastArgs]⟩
    exact iff_of_true (fun h => absurd rfl h)
      ⟨hlasts, splitsHarmless_of_unsplit conv hlasts (by simp [Unsplit])⟩
  have hcall : getAllUrlParameters conv headers params outParams =
      some ⟨true, KeyedMap.empty.addAll (piecePairs conv args),
        [.query .lwsHdrTotalLength, .query .lwsHdrCopy]⟩ := by
    rw [getAllUrlParameters_eq conv outParams hreason (hstored ▸ uriArgs_ne_nil hne), hstored,
      parseIntoArray_uriArgs]
  constructor
  · intro hreads
    obtain ⟨g, hg, _, hperm⟩ := hreads hne
    rw [hcall, Option.some.injEq] at hg
    subst hg
    have hlast : ∀ p, KeyedMap.IsLast FString.lower (piecePairs conv args) p ↔
        p ∈ (lastArgs args).map (UrlArg.pair conv) := fun p =>
      KeyedMap.mem_addAll_empty_iff.symm.trans hperm.mem_iff
    have hmem : ∀ a ∈ lastArgs args, a.pair conv ∈ piecePairs conv args := fun a ha =>
      ((hlast _).mpr (List.mem_map_of_mem ha)).mem
    refine ⟨⟨fun a ha => ?_, fun a ha b hb hname hkey => hname ?_⟩,
      fun p => (hlast p).mp, fun a ha => ⟨_, hmem a ha, rfl⟩⟩
    · have hpair := hmem a ha
      rw [← parseIntoArray_uriArgs] at hpair
      exact plain_of_pair_mem conv hpair
    · have hnodup := (hperm.map fun p => FString.lower p.1).nodup_iff.mp (KeyedMap.nodup _)
      rw [List.map_map] at hnodup
      rw [List.inj_on_of_nodup_map hnodup ha hb hkey]
  · rintro ⟨hlasts, hharmless⟩ -
    refine ⟨_, hcall, rfl, ?_⟩
    refine (List.perm_ext_iff_of_nodup ?_ ?_).mpr fun p => ?_
    · exact List.Nodup.of_map _ (KeyedMap.nodup _)
    · refine List.Nodup.map_on (fun a ha b hb heq => ?_) (List.Nodup.of_map _ (nodup_lastArgs args))
      by_contra hab
      refine hlasts.apart a ha b hb (fun hname => hab ?_) (by rw [heq])
      exact List.inj_on_of_nodup_map (nodup_lastArgs args) ha hb hname
    · rw [KeyedMap.mem_addAll_empty_iff]
      exact isLast_piecePairs_of_harmless conv hlasts hharmless p

/-- Plain arguments do not split. -/
theorem UrlArg.Plain.unsplit {a : UrlArg} (h : a.Plain) : 38 ∉ a.fragment ∧ 0 ∉ a.fragment := by
  obtain ⟨⟨hname, hname0⟩, ⟨hvalue, -, hvalue0⟩, -⟩ := h
  simp only [UrlArg.fragment, List.mem_append, List.mem_cons, not_or]
  exact ⟨⟨hname, by decide, hvalue⟩, hname0, by decide, hvalue0⟩

/-- Where no name repeats, every argument is the last one of its name. -/
theorem lastArgs_of_nodup {args : List UrlArg} (h : (args.map UrlArg.name).Nodup) :
    lastArgs args = args := by
  induction args with
  | nil => rfl
  | cons a args ih =>
    rw [List.map_cons, List.nodup_cons] at h
    rw [lastArgs, if_neg h.1, ih h.2]

/-- **Which arguments are read back.** `GetAllUrlParameters` reads an argument list back
only when the last argument of every name is plain and the names differ also without
case. This is the exact condition for every list without repeated names, and for every
list in which no argument, overridden ones included, has an ampersand or a NUL. In the
other lists the pieces of an overridden argument have to do no harm as well. -/
theorem getAllUrlParameters_reads_iff {headers : HeaderTable} {params : FLwsParams}
    (outParams : FStringMap FString) {args : List UrlArg}
    (hreason : params.reason = .lwsCallbackHttp ∨ params.reason = .lwsCallbackHttpBody)
    (hstored : headers .wsiTokenHttpUriArgs = uriArgs args) :
    ((args.map UrlArg.name).Nodup →
      (ReadsArguments conv args (getAllUrlParameters conv headers params outParams) ↔
        LastsReadable conv args)) ∧
    (Unsplit args →
      (ReadsArguments conv args (getAllUrlParameters conv headers params outParams) ↔
        LastsReadable conv args)) ∧
    (ReadsArguments conv args (getAllUrlParameters conv headers params outParams) ↔
      LastsReadable conv args ∧ SplitsHarmless conv args) := by
  have hiff := readsArguments_iff_harmless conv outParams hreason hstored
  have hunsplit : Unsplit args →
      (ReadsArguments conv args (getAllUrlParameters conv headers params outParams) ↔
        LastsReadable conv args) := by
    intro hunsplit
    rw [hiff]
    exact ⟨fun h => h.1, fun h => ⟨h, splitsHarmless_of_unsplit conv h hunsplit⟩⟩
  refine ⟨fun hnodup => ?_, hunsplit, hiff⟩
  constructor
  · exact fun hreads => (hiff.mp hreads).1
  · intro hlasts
    refine (hunsplit fun a ha => ?_).mpr hlasts
    apply UrlArg.Plain.unsplit
    apply hlasts.plain a
    rwa [lastArgs_of_nodup hnodup]

/-- The header table of a request that has nothing but these arguments. -/
def storedArgs (args : List UrlArg) : HeaderTable := fun h =>
  if h = .wsiTokenHttpUriArgs then uriArgs args else []

/-- The argument `id=7`. -/
def idSeven : UrlArg := ⟨ascii "id", ascii "7", by decide, by decide⟩

/-- The argument `token=QQ==`, whose value ends in base64 padding. -/
def paddedToken : UrlArg := ⟨ascii "token", ascii "QQ==", by decide, by decide⟩

/-- The argument `id=7` is read back. -/
theorem id_read_back :
    ReadsArguments .latin1 [idSeven] (getAllUrlParameters .latin1 (storedArgs [idSeven])
      ⟨1, none, 0, .lwsCallbackHttp, 0⟩ .empty) := by
  have hlast : ∀ a ∈ lastArgs [idSeven], a = idSeven := by simp [lastArgs]
  have hlasts : LastsReadable .latin1 [idSeven] := by
    refine ⟨fun a ha => ?_, fun a ha b hb hname => ?_⟩
    · rw [hlast a ha]
      exact ⟨by decide, by decide, by decide⟩
    · rw [hlast a ha, hlast b hb] at hname
      exact absurd rfl hname
  exact ((getAllUrlParameters_reads_iff .latin1 .empty (Or.inl (by decide)) (by decide)).1
    (by decide)).mpr hlasts

/-- The padding of `token=QQ==` is taken for separators and lost. -/
theorem padded_token_not_read_back :
    ¬ReadsArguments .latin1 [paddedToken] (getAllUrlParameters .latin1
      (storedArgs [paddedToken]) ⟨1, none, 0, .lwsCallbackHttp, 0⟩ .empty) := by
  intro h
  obtain ⟨g, hg, _, hperm⟩ := h (by simp)
  have hout : (getAllUrlParameters .latin1 (storedArgs [paddedToken])
      ⟨1, none, 0, .lwsCallbackHttp, 0⟩ .empty).map (fun g => g.out.pairs) =
      some [(text "token", text "QQ")] := by
    decide +kernel
  rw [hg, Option.map_some, Option.some.injEq] at hout
  rw [hout] at hperm
  exact absurd (List.perm_singleton.mp hperm.symm) (by decide)

end HttpLws
