import Mathlib.Data.List.Nodup
import Mathlib.Data.List.Induction

/-!
# Maps whose keys are compared through a normal form

A keyed map lists pairs in insertion order. Two keys are the same when their
normal forms agree; no key occurs twice. Adding under a key that is present
replaces the pair in its place, the key included. After adding a list of pairs,
the map holds exactly the last pair of each key.
-/

/-- An insertion-ordered map whose keys are compared through `norm`. -/
structure KeyedMap {K N : Type*} (norm : K → N) (V : Type*) where
  /-- The pairs in iteration order. -/
  pairs : List (K × V)
  /-- No two pairs have the same key. -/
  nodup : (pairs.map fun p => norm p.1).Nodup

namespace KeyedMap

variable {K N V : Type*} {norm : K → N}

/-- The map without pairs. -/
def empty : KeyedMap norm V := ⟨[], List.nodup_nil⟩

/-- A map has at most one pair of each key. -/
theorem eq_of_mem (m : KeyedMap norm V) {p q : K × V} (hp : p ∈ m.pairs) (hq : q ∈ m.pairs)
    (h : norm p.1 = norm q.1) : p = q :=
  List.inj_on_of_nodup_map m.nodup hp hq h

variable [DecidableEq N]

/-- Replace the pair whose key is the same as `k`, or append a new pair. -/
def setPair (norm : K → N) (k : K) (v : V) : List (K × V) → List (K × V)
  | [] => [(k, v)]
  | p :: ps => if norm p.1 = norm k then (k, v) :: ps else p :: setPair norm k v ps

/-- Setting a pair keeps the normal forms in place and appends a new one. -/
theorem map_norm_setPair (k : K) (v : V) (ps : List (K × V)) :
    (setPair norm k v ps).map (fun p => norm p.1) =
      if norm k ∈ ps.map (fun p => norm p.1) then ps.map (fun p => norm p.1)
      else ps.map (fun p => norm p.1) ++ [norm k] := by
  induction ps with
  | nil => simp [setPair]
  | cons p ps ih =>
    by_cases h : norm p.1 = norm k
    · simp [setPair, h]
    · rw [setPair, if_neg h, List.map_cons, List.map_cons, ih]
      by_cases hmem : norm k ∈ ps.map fun p => norm p.1
      · rw [if_pos hmem, if_pos (List.mem_cons_of_mem _ hmem)]
      · have hmem' : norm k ∉ norm p.1 :: ps.map fun p => norm p.1 := by
          rw [List.mem_cons, not_or]
          exact ⟨fun heq => h heq.symm, hmem⟩
        rw [if_neg hmem, if_neg hmem', List.cons_append]

/-- Add a pair. -/
def add (m : KeyedMap norm V) (k : K) (v : V) : KeyedMap norm V where
  pairs := setPair norm k v m.pairs
  nodup := by
    rw [map_norm_setPair]
    split_ifs with h
    · exact m.nodup
    · exact List.nodup_append.mpr ⟨m.nodup, by simp, by
        rintro a ha b hb rfl
        rw [List.mem_singleton] at hb
        exact h (hb ▸ ha)⟩

/-- The pairs after setting one: the new pair and those with another key. -/
theorem mem_setPair_iff {ps : List (K × V)} (hnodup : (ps.map fun p => norm p.1).Nodup)
    {k : K} {v : V} {p : K × V} :
    p ∈ setPair norm k v ps ↔ p = (k, v) ∨ p ∈ ps ∧ norm p.1 ≠ norm k := by
  induction ps with
  | nil => simp [setPair]
  | cons q ps ih =>
    rw [List.map_cons, List.nodup_cons] at hnodup
    by_cases h : norm q.1 = norm k
    · rw [setPair, if_pos h]
      constructor
      · rintro (_ | ⟨_, hp⟩)
        · exact Or.inl rfl
        · refine Or.inr ⟨List.mem_cons_of_mem q hp, fun heq => hnodup.1 ?_⟩
          rw [h, ← heq]
          exact List.mem_map_of_mem hp
      · rintro (rfl | ⟨hp, hne⟩)
        · exact List.mem_cons_self
        · rcases List.mem_cons.mp hp with rfl | hp
          · exact absurd h hne
          · exact List.mem_cons_of_mem _ hp
    · rw [setPair, if_neg h, List.mem_cons, ih hnodup.2]
      constructor
      · rintro (rfl | rfl | ⟨hp, hne⟩)
        · exact Or.inr ⟨List.mem_cons_self, h⟩
        · exact Or.inl rfl
        · exact Or.inr ⟨List.mem_cons_of_mem q hp, hne⟩
      · rintro (rfl | ⟨hp, hne⟩)
        · exact Or.inr (Or.inl rfl)
        · rcases List.mem_cons.mp hp with rfl | hp
          · exact Or.inl rfl
          · exact Or.inr (Or.inr ⟨hp, hne⟩)

/-- Membership after adding one pair. -/
theorem mem_add_iff {m : KeyedMap norm V} {k : K} {v : V} {p : K × V} :
    p ∈ (m.add k v).pairs ↔ p = (k, v) ∨ p ∈ m.pairs ∧ norm p.1 ≠ norm k :=
  mem_setPair_iff m.nodup

/-- Add a list of pairs in order. -/
def addAll (m : KeyedMap norm V) (ps : List (K × V)) : KeyedMap norm V :=
  ps.foldl (fun m p => m.add p.1 p.2) m

/-- The pair is the last one of the list with its key. -/
def IsLast (norm : K → N) (ps : List (K × V)) (p : K × V) : Prop :=
  ∃ before after, ps = before ++ p :: after ∧ ∀ q ∈ after, norm q.1 ≠ norm p.1

omit [DecidableEq N] in
/-- A last pair is one of the pairs. -/
theorem IsLast.mem {ps : List (K × V)} {p : K × V} (h : IsLast norm ps p) : p ∈ ps := by
  obtain ⟨before, after, rfl, _⟩ := h
  simp

omit [DecidableEq N] in
/-- Where all keys are different, every pair is the last one with its key. -/
theorem isLast_iff_mem {ps : List (K × V)} (h : ps.Pairwise fun p q => norm p.1 ≠ norm q.1)
    {p : K × V} : IsLast norm ps p ↔ p ∈ ps := by
  constructor
  · exact IsLast.mem
  · intro hp
    obtain ⟨before, after, rfl⟩ := List.append_of_mem hp
    rw [List.pairwise_append, List.pairwise_cons] at h
    exact ⟨before, after, rfl, fun q hq heq => h.2.1.1 q hq heq.symm⟩

omit [DecidableEq N] in
/-- The last pairs of a list with one more element in front. -/
theorem isLast_cons_iff {ps : List (K × V)} {p q : K × V} :
    IsLast norm (q :: ps) p ↔ (p = q ∧ ∀ r ∈ ps, norm r.1 ≠ norm q.1) ∨ IsLast norm ps p := by
  constructor
  · rintro ⟨before, after, heq, hafter⟩
    cases before with
    | nil =>
      rw [List.nil_append, List.cons.injEq] at heq
      obtain ⟨rfl, rfl⟩ := heq
      exact Or.inl ⟨rfl, hafter⟩
    | cons b before =>
      rw [List.cons_append, List.cons.injEq] at heq
      exact Or.inr ⟨before, after, heq.2, hafter⟩
  · rintro (⟨rfl, hrest⟩ | ⟨before, after, rfl, hafter⟩)
    · exact ⟨[], ps, rfl, hrest⟩
    · exact ⟨q :: before, after, rfl, hafter⟩

omit [DecidableEq N] in
/-- A pair in front whose key comes again changes nothing. -/
theorem isLast_toList_append_iff {o : Option (K × V)} {ps : List (K × V)} {p : K × V}
    (hagain : ∀ q ∈ o, ∃ r ∈ ps, norm r.1 = norm q.1) :
    IsLast norm (o.toList ++ ps) p ↔ IsLast norm ps p := by
  cases o with
  | none => rw [Option.toList_none, List.nil_append]
  | some q =>
    obtain ⟨r, hr, hkey⟩ := hagain q rfl
    rw [Option.toList_some, List.singleton_append, isLast_cons_iff]
    constructor
    · rintro (⟨_, hnone⟩ | h)
      · exact absurd hkey (hnone r hr)
      · exact h
    · exact Or.inr

omit [DecidableEq N] in
/-- The last pairs of a list with one more element. -/
theorem isLast_concat_iff {ps : List (K × V)} {p q : K × V} :
    IsLast norm (ps ++ [q]) p ↔ p = q ∨ IsLast norm ps p ∧ norm p.1 ≠ norm q.1 := by
  constructor
  · rintro ⟨before, after, heq, hafter⟩
    rcases List.eq_nil_or_concat after with rfl | ⟨rest, last, rfl⟩
    · obtain ⟨_, hq⟩ := List.append_inj' heq rfl
      rw [List.cons.injEq] at hq
      exact Or.inl hq.1.symm
    · rw [List.concat_eq_append, ← List.cons_append, ← List.append_assoc] at heq
      obtain ⟨hps, hq⟩ := List.append_inj' heq rfl
      obtain rfl : q = last := by simpa using hq
      refine Or.inr ⟨⟨before, rest, hps, fun r hr => hafter r (by simp [hr])⟩, ?_⟩
      exact fun h => hafter q (by simp) h.symm
  · rintro (rfl | ⟨⟨before, after, rfl, hafter⟩, hne⟩)
    · exact ⟨ps, [], rfl, by simp⟩
    · refine ⟨before, after ++ [q], by simp, fun r hr => ?_⟩
      rcases List.mem_append.mp hr with hr | hr
      · exact hafter r hr
      · rw [List.mem_singleton] at hr
        exact fun h => hne (hr ▸ h).symm

/-- **Last pair wins.** Adding a list to the empty map leaves the last pair of each key. -/
theorem mem_addAll_empty_iff {ps : List (K × V)} {p : K × V} :
    p ∈ ((empty : KeyedMap norm V).addAll ps).pairs ↔ IsLast norm ps p := by
  induction ps using List.reverseRecOn with
  | nil => simp [addAll, empty, IsLast]
  | append_singleton ps q ih =>
    have hadd : (empty : KeyedMap norm V).addAll (ps ++ [q]) =
        ((empty : KeyedMap norm V).addAll ps).add q.1 q.2 := by
      simp [addAll]
    rw [hadd, mem_add_iff, ih, isLast_concat_iff]

/-- A key that occurs has a last pair. -/
theorem exists_isLast (norm : K → N) {ps : List (K × V)} {p : K × V} (hp : p ∈ ps) :
    ∃ q, IsLast norm ps q ∧ norm q.1 = norm p.1 := by
  induction ps using List.reverseRecOn with
  | nil => simp at hp
  | append_singleton ps r ih =>
    by_cases h : norm r.1 = norm p.1
    · exact ⟨r, isLast_concat_iff.mpr (Or.inl rfl), h⟩
    · have hmem : p ∈ ps := by
        rcases List.mem_append.mp hp with hp | hp
        · exact hp
        · rw [List.mem_singleton] at hp
          exact absurd (by rw [hp]) h
      obtain ⟨q, hq, hqp⟩ := ih hmem
      exact ⟨q, isLast_concat_iff.mpr (Or.inr ⟨hq, fun heq => h (heq ▸ hqp)⟩), hqp⟩

end KeyedMap
