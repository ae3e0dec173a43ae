import Mathlib.Data.List.Basic

/-!
# Character encodings of variable length

An encoding gives each character one or more bytes, or none when it has no form in
the encoding. A string is encoded character by character. Its encoding has at least
as many bytes as the string has characters, and as many only when each takes one byte.
-/

/-- An encoding of characters as bytes. -/
structure CharEncoding (α : Type*) where
  /-- The bytes of a character. -/
  encode : α → Option (List UInt8)
  /-- Every encoded character takes some bytes. -/
  encode_ne_nil : ∀ c bytes, encode c = some bytes → bytes ≠ []

namespace CharEncoding

variable {α : Type*} (e : CharEncoding α)

/-- The encoding of a string, if all its characters have one. -/
def encodeAll : List α → Option (List UInt8)
  | [] => some []
  | c :: cs => (e.encode c).bind fun b => (encodeAll cs).map (b ++ ·)

/-- The character takes one byte. -/
def OneByte (c : α) : Prop := ∃ b, e.encode c = some [b]

/-- The encoding of a string with one more character. -/
theorem encodeAll_cons_eq_some {c : α} {cs : List α} {bytes : List UInt8} :
    e.encodeAll (c :: cs) = some bytes ↔
      ∃ b bs, e.encode c = some b ∧ e.encodeAll cs = some bs ∧ bytes = b ++ bs := by
  rw [encodeAll, Option.bind_eq_some_iff]
  constructor
  · rintro ⟨b, hb, hmap⟩
    obtain ⟨bs, hbs, rfl⟩ := Option.map_eq_some_iff.mp hmap
    exact ⟨b, bs, hb, hbs, rfl⟩
  · rintro ⟨b, bs, hb, hbs, rfl⟩
    exact ⟨b, hb, Option.map_eq_some_iff.mpr ⟨bs, hbs, rfl⟩⟩

/-- An encoded string has at least one byte for each character. -/
theorem length_le {s : List α} {bytes : List UInt8} (h : e.encodeAll s = some bytes) :
    s.length ≤ bytes.length := by
  induction s generalizing bytes with
  | nil => simp
  | cons c s ih =>
    obtain ⟨b, bs, hb, hbs, rfl⟩ := e.encodeAll_cons_eq_some.mp h
    have hpos : 0 < b.length := List.length_pos_iff.mpr (e.encode_ne_nil c b hb)
    have hrest := ih hbs
    simp only [List.length_cons, List.length_append]
    omega

/-- An encoded string has one byte for each character exactly when each takes one byte. -/
theorem length_eq_iff {s : List α} {bytes : List UInt8} (h : e.encodeAll s = some bytes) :
    bytes.length = s.length ↔ ∀ c ∈ s, e.OneByte c := by
  induction s generalizing bytes with
  | nil =>
    obtain rfl := Option.some.inj h
    simp
  | cons c s ih =>
    obtain ⟨b, bs, hb, hbs, rfl⟩ := e.encodeAll_cons_eq_some.mp h
    have hpos : 0 < b.length := List.length_pos_iff.mpr (e.encode_ne_nil c b hb)
    have hrest := e.length_le hbs
    rw [List.forall_mem_cons, ← ih hbs, List.length_append, List.length_cons]
    constructor
    · intro hlen
      have hone : b.length = 1 := by omega
      obtain ⟨x, rfl⟩ := List.length_eq_one_iff.mp hone
      exact ⟨⟨x, hb⟩, by omega⟩
    · rintro ⟨⟨x, hx⟩, hlen⟩
      rw [hx, Option.some.injEq] at hb
      subst hb
      simp only [List.length_singleton]
      omega

/-- A string whose characters take one byte each has an encoding. -/
theorem exists_encodeAll {s : List α} (h : ∀ c ∈ s, e.OneByte c) :
    ∃ bytes, e.encodeAll s = some bytes := by
  induction s with
  | nil => exact ⟨[], rfl⟩
  | cons c s ih =>
    rw [List.forall_mem_cons] at h
    obtain ⟨b, hb⟩ := h.1
    obtain ⟨bs, hbs⟩ := ih h.2
    exact ⟨[b] ++ bs, e.encodeAll_cons_eq_some.mpr ⟨[b], bs, hb, hbs, rfl⟩⟩

/-- A byte that no character's form contains is not in an encoding. -/
theorem not_mem_encodeAll {s : List α} {bytes : List UInt8} {x : UInt8}
    (hx : ∀ c ∈ s, ∀ b, e.encode c = some b → x ∉ b) (h : e.encodeAll s = some bytes) :
    x ∉ bytes := by
  induction s generalizing bytes with
  | nil =>
    obtain rfl := Option.some.inj h
    simp
  | cons c s ih =>
    obtain ⟨b, bs, hb, hbs, rfl⟩ := e.encodeAll_cons_eq_some.mp h
    rw [List.forall_mem_cons] at hx
    rw [List.mem_append, not_or]
    exact ⟨hx.1 b hb, ih hx.2 hbs⟩

end CharEncoding
