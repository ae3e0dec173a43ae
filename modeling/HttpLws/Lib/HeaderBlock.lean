import Mathlib.Data.List.DropRight
import Mathlib.Data.List.Forall2
import Mathlib.Algebra.BigOperators.Group.List.Basic

/-!
# HTTP/1.x header blocks

A header block is a start line, header field lines and a blank line, each ended
by CR LF. The reader here accepts a field line when its name is a non-empty token
directly followed by a colon and its value has no control bytes except HTAB; it
drops spaces and tabs around the value. The main rule says when a block printed
from given line contents is read back as one field for each content.
-/

namespace HeaderBlock

/-- One header field: the bytes of its name and of its value. -/
structure Field where
  /-- The field name, without the colon. -/
  name : List UInt8
  /-- The field value, without surrounding spaces and tabs. -/
  value : List UInt8
  deriving DecidableEq

/-- The bytes allowed in a field name. -/
def isTchar (b : UInt8) : Bool :=
  (48 ≤ b && b ≤ 57) || (65 ≤ b && b ≤ 90) || (97 ≤ b && b ≤ 122) ||
    [33, 35, 36, 37, 38, 39, 42, 43, 45, 46, 94, 95, 96, 124, 126].contains b

/-- The bytes allowed in a field value: HTAB, space and everything above but DEL. -/
def isFieldByte (b : UInt8) : Bool := b == 9 || (32 ≤ b && b != 127)

/-- The optional white space around a field value. -/
def isOws (b : UInt8) : Bool := b == 32 || b == 9

/-- A field name is a non-empty list of token bytes. -/
def IsToken (name : List UInt8) : Prop := name ≠ [] ∧ ∀ b ∈ name, isTchar b = true

/-- A printed field value: allowed bytes, no white space at either end. -/
def IsFieldValue (value : List UInt8) : Prop :=
  (∀ b ∈ value, isFieldByte b = true) ∧ (∀ b ∈ value.head?, isOws b = false) ∧
    ∀ b ∈ value.getLast?, isOws b = false

-- Decided on the bytes of the list: `UInt8` being finite, the bounded quantifiers
-- could also be decided by going through all bytes.
instance (name : List UInt8) : Decidable (IsToken name) :=
  decidable_of_iff (name ≠ [] ∧ name.all isTchar = true) (by simp [IsToken])

instance (value : List UInt8) : Decidable (IsFieldValue value) :=
  decidable_of_iff (value.all isFieldByte = true ∧ value.head?.all (!isOws ·) = true ∧
    value.getLast?.all (!isOws ·) = true)
    (by simp [IsFieldValue, Option.all_eq_true])

/-- Drop white space at both ends. -/
def trim (bs : List UInt8) : List UInt8 := (bs.dropWhile isOws).rdropWhile isOws

/-- The pieces of a byte string between its CR LF pairs. -/
def lines : List UInt8 → List (List UInt8)
  | [] => [[]]
  | [b] => [[b]]
  | b :: c :: bs =>
      if b = 13 ∧ c = 10 then [] :: lines bs
      else match lines (c :: bs) with
        | [] => [[b]]
        | l :: ls => (b :: l) :: ls

/-- Read one field line. -/
def parseField (line : List UInt8) : Option Field :=
  let name := line.takeWhile (· ≠ 58)
  match line.dropWhile (· ≠ 58) with
  | [] => none
  | _ :: rest =>
      if name ≠ [] ∧ name.all isTchar ∧ rest.all isFieldByte then some ⟨name, trim rest⟩
      else none

/-- Read field lines up to the blank line, and return what follows it. -/
def readFields : List (List UInt8) → Option (List Field × List (List UInt8))
  | [] => none
  | [] :: rest => some ([], rest)
  | line :: rest =>
      match parseField line, readFields rest with
      | some f, some (fs, after) => some (f :: fs, after)
      | _, _ => none

/-- Read a whole header block. Nothing may follow the blank line. -/
def parse (block : List UInt8) : Option (List UInt8 × List Field) :=
  match lines block with
  | [] => none
  | start :: ls =>
      match readFields ls with
      | some (fs, after) => if after = [[]] then some (start, fs) else none
      | none => none

/-- The line of a content: its bytes closed by CR LF. -/
def closed (content : List UInt8) : List UInt8 := content ++ [13, 10]

/-- A field as it is printed, without the line end. -/
def fieldContent (f : Field) : List UInt8 := f.name ++ 58 :: 32 :: f.value

/-- The block of a start line and line contents. -/
def print (start : List UInt8) (contents : List (List UInt8)) : List UInt8 :=
  closed start ++ (contents.map closed).flatten ++ [13, 10]

theorem lines_ne_nil (bs : List UInt8) : lines bs ≠ [] := by
  induction bs using lines.induct with
  | case1 => simp [lines]
  | case2 b => simp [lines]
  | case3 b c bs hp ih => simp [lines, hp]
  | case4 b c bs hp hnil ih => exact absurd hnil ih
  | case5 b c bs hp l ls hl ih =>
    rw [lines, if_neg hp, hl]
    exact List.cons_ne_nil _ _

/-- A CR LF pair separates the pieces before it from the pieces after it. -/
theorem lines_closed_append (a b : List UInt8) : lines (closed a ++ b) = lines a ++ lines b := by
  unfold closed
  induction a using lines.induct with
  | case1 => simp [lines]
  | case2 x => simp [lines]
  | case3 x y bs hp ih =>
    simp only [List.cons_append] at ih ⊢
    rw [lines, if_pos hp, lines, if_pos hp, ih]
    rfl
  | case4 x y bs hp hnil ih => exact absurd hnil (lines_ne_nil _)
  | case5 x y bs hp l ls hl ih =>
    simp only [List.cons_append] at ih ⊢
    rw [lines, if_neg hp, ih, hl, lines, if_neg hp, hl]
    rfl

/-- A byte string without CR is one piece. -/
theorem lines_of_no_cr {bs : List UInt8} (h : 13 ∉ bs) : lines bs = [bs] := by
  induction bs using lines.induct with
  | case1 => rfl
  | case2 b => rfl
  | case3 b c bs hp ih => exact absurd (by simp [hp.1]) h
  | case4 b c bs hp hnil ih => exact absurd hnil (lines_ne_nil _)
  | case5 b c bs hp l ls hl ih =>
    have hrest := ih (fun hm => h (List.mem_cons_of_mem b hm))
    rw [lines, if_neg hp, hrest]

/-- A byte string with one piece is that piece. -/
theorem eq_of_lines_singleton {bs l : List UInt8} (h : lines bs = [l]) : l = bs := by
  induction bs using lines.induct generalizing l with
  | case1 => simpa [lines, eq_comm] using h
  | case2 b => simpa [lines, eq_comm] using h
  | case3 b c bs hp ih =>
    rw [lines, if_pos hp, List.cons.injEq] at h
    exact absurd h.2 (lines_ne_nil bs)
  | case4 b c bs hp hnil ih => exact absurd hnil (lines_ne_nil _)
  | case5 b c bs hp l' ls hl ih =>
    rw [lines, if_neg hp, hl] at h
    simp only [List.cons.injEq] at h
    obtain ⟨rfl, rfl⟩ := h
    rw [ih hl]

/-- The pieces of a printed block. -/
theorem lines_print (start : List UInt8) (contents : List (List UInt8)) :
    lines (print start contents) = lines start ++ (contents.flatMap lines ++ [[], []]) := by
  have hcontents : ∀ cs : List (List UInt8),
      lines ((cs.map closed).flatten ++ [13, 10]) = cs.flatMap lines ++ [[], []] := by
    intro cs
    induction cs with
    | nil => rfl
    | cons c cs ih =>
      rw [List.map_cons, List.flatten_cons, List.append_assoc, lines_closed_append, ih,
        List.flatMap_cons, List.append_assoc]
  rw [print, List.append_assoc, lines_closed_append, hcontents]

/-- What a successful field line looks like: the name up to the first colon. -/
theorem parseField_eq_some {line : List UInt8} {f : Field} (h : parseField line = some f) :
    ∃ rest, line = f.name ++ 58 :: rest ∧ IsToken f.name ∧
      (∀ b ∈ rest, isFieldByte b = true) ∧ f.value = trim rest := by
  unfold parseField at h
  cases hdrop : line.dropWhile (· ≠ 58) with
  | nil =>
    simp only [hdrop] at h
    cases h
  | cons b rest =>
    simp only [hdrop] at h
    split_ifs at h with hok
    obtain rfl := Option.some.inj h
    have hcolon : b = 58 := by
      have hhead := List.head?_dropWhile_not (p := (· ≠ 58)) (l := line)
      rw [hdrop] at hhead
      simpa using hhead
    subst hcolon
    refine ⟨rest, ?_, ⟨hok.1, List.all_eq_true.mp hok.2.1⟩, List.all_eq_true.mp hok.2.2, rfl⟩
    rw [← hdrop]
    exact (List.takeWhile_append_dropWhile).symm

/-- The bytes of a token are ASCII. -/
theorem isTchar_lt {b : UInt8} (h : isTchar b = true) : b.toNat < 0x80 := by
  simp only [isTchar, Bool.or_eq_true, Bool.and_eq_true, decide_eq_true_eq, List.contains_iff_mem,
    List.mem_cons, List.not_mem_nil, or_false, UInt8.le_iff_toNat_le] at h
  rcases h with ((⟨_, h⟩ | ⟨_, h⟩) | ⟨_, h⟩) | h
  · exact lt_of_le_of_lt h (by decide)
  · exact lt_of_le_of_lt h (by decide)
  · exact lt_of_le_of_lt h (by decide)
  · rcases h with rfl | rfl | rfl | rfl | rfl | rfl | rfl | rfl | rfl | rfl | rfl | rfl | rfl |
      rfl | rfl <;> decide

/-- The bytes of a token are no colons. -/
theorem IsToken.ne_colon {name : List UInt8} (hname : IsToken name) :
    ∀ b ∈ name, decide (b ≠ 58) = true := by
  intro b hb
  have htc := hname.2 b hb
  rw [decide_eq_true_eq]
  rintro rfl
  exact absurd htc (by decide)

/-- The token before the first colon. -/
theorem IsToken.takeWhile {name : List UInt8} (hname : IsToken name) (rest : List UInt8) :
    (name ++ 58 :: rest).takeWhile (· ≠ 58) = name := by
  rw [List.takeWhile_append_of_pos hname.ne_colon]
  simp

/-- A token followed by a colon and allowed bytes is a field line. -/
theorem parseField_of_token {name rest : List UInt8} (hname : IsToken name)
    (hrest : ∀ b ∈ rest, isFieldByte b = true) :
    parseField (name ++ 58 :: rest) = some ⟨name, trim rest⟩ := by
  have hdrop : (name ++ 58 :: rest).dropWhile (· ≠ 58) = 58 :: rest := by
    rw [List.dropWhile_append_of_pos hname.ne_colon]
    simp
  have hok : name ≠ [] ∧ name.all isTchar = true ∧ rest.all isFieldByte = true :=
    ⟨hname.1, List.all_eq_true.mpr hname.2, List.all_eq_true.mpr hrest⟩
  unfold parseField
  rw [hname.takeWhile, hdrop]
  exact if_pos hok

/-- An empty line is not a field line. -/
theorem parseField_nil : parseField [] = none := rfl

/-- Field reading of a line that is not empty: a field, then the rest. -/
theorem readFields_cons_eq_some_iff {line : List UInt8} (hline : line ≠ [])
    {ls after : List (List UInt8)} {fs : List Field} :
    readFields (line :: ls) = some (fs, after) ↔
      ∃ f fs', parseField line = some f ∧ readFields ls = some (fs', after) ∧ fs = f :: fs' := by
  obtain ⟨b, line, rfl⟩ := List.exists_cons_of_ne_nil hline
  cases hfield : parseField (b :: line) with
  | none => simp [readFields, hfield]
  | some f =>
    cases hrest : readFields ls with
    | none => simp [readFields, hfield, hrest]
    | some result => simp [readFields, hfield, hrest, Prod.ext_iff, and_comm, eq_comm]

/-- Field reading succeeds exactly on field lines followed by an empty line. -/
theorem readFields_eq_some_iff {ls after : List (List UInt8)} {fs : List Field} :
    readFields ls = some (fs, after) ↔
      ∃ pre, ls = pre ++ [] :: after ∧
        List.Forall₂ (fun l f => parseField l = some f) pre fs := by
  induction ls generalizing fs with
  | nil => simp [readFields]
  | cons line ls ih =>
    by_cases hline : line = []
    · subst hline
      constructor
      · intro h
        simp only [readFields, Option.some.injEq, Prod.mk.injEq] at h
        obtain ⟨rfl, rfl⟩ := h
        exact ⟨[], rfl, .nil⟩
      · rintro ⟨pre, hls, hpre⟩
        cases hpre with
        | nil =>
          simp only [List.nil_append, List.cons.injEq, true_and] at hls
          rw [hls]
          rfl
        | cons hfirst _ =>
          simp only [List.cons_append, List.cons.injEq] at hls
          rw [← hls.1, parseField_nil] at hfirst
          cases hfirst
    · rw [readFields_cons_eq_some_iff hline]
      constructor
      · rintro ⟨f, fs', hfield, hrest, rfl⟩
        obtain ⟨pre, rfl, hpre⟩ := ih.mp hrest
        exact ⟨line :: pre, rfl, .cons hfield hpre⟩
      · rintro ⟨pre, hls, hpre⟩
        cases hpre with
        | nil =>
          simp only [List.nil_append, List.cons.injEq] at hls
          exact absurd hls.1 hline
        | cons hfirst hrest =>
          simp only [List.cons_append, List.cons.injEq] at hls
          obtain ⟨rfl, rfl⟩ := hls
          exact ⟨_, _, hfirst, ih.mpr ⟨_, rfl, hrest⟩, rfl⟩

/-- Lists of non-empty lists with as many elements as lists are lists of singletons. -/
theorem lines_singleton_of_length {contents : List (List UInt8)}
    (h : (contents.flatMap lines).length = contents.length) :
    (∀ c ∈ contents, lines c = [c]) ∧ contents.flatMap lines = contents := by
  have hpos : ∀ c : List UInt8, 1 ≤ (lines c).length := fun c =>
    List.length_pos_iff.mpr (lines_ne_nil c)
  have hle : ∀ cs : List (List UInt8), cs.length ≤ (cs.flatMap lines).length := by
    intro cs
    induction cs with
    | nil => simp
    | cons c cs ih =>
      have := hpos c
      simp only [List.flatMap_cons, List.length_append, List.length_cons]
      omega
  induction contents with
  | nil => simp
  | cons c cs ih =>
    simp only [List.flatMap_cons, List.length_append, List.length_cons] at h
    have hc := hpos c
    have hcs := hle cs
    obtain ⟨l, hl⟩ := List.length_eq_one_iff.mp (by omega : (lines c).length = 1)
    have hsingle : lines c = [c] := by rw [hl, eq_of_lines_singleton hl]
    obtain ⟨hall, hflat⟩ := ih (by omega)
    exact ⟨List.forall_mem_cons.mpr ⟨hsingle, hall⟩, by rw [List.flatMap_cons, hsingle, hflat]; rfl⟩

/-- **Reading a printed block.** A block reads back as one field for each of its
contents exactly when no content holds a CR LF pair and each is a field line. -/
theorem parse_print_iff {start : List UInt8} {contents : List (List UInt8)} {fs : List Field}
    (hstart : lines start = [start]) (hlen : fs.length = contents.length) :
    parse (print start contents) = some (start, fs) ↔
      List.Forall₂ (fun c f => lines c = [c] ∧ parseField c = some f) contents fs := by
  have hlines : lines (print start contents) =
      start :: (contents.flatMap lines ++ [] :: [[]]) := by
    rw [lines_print, hstart]
    rfl
  constructor
  · intro h
    rw [parse, hlines] at h
    simp only at h
    cases hread : readFields (contents.flatMap lines ++ [] :: [[]]) with
    | none => simp only [hread, reduceCtorEq] at h
    | some result =>
      obtain ⟨fs', after⟩ := result
      simp only [hread] at h
      split_ifs at h with hafter
      simp only [Option.some.injEq, Prod.mk.injEq, true_and] at h
      subst h hafter
      obtain ⟨pre, heq, hpre⟩ := readFields_eq_some_iff.mp hread
      have hflat : contents.flatMap lines = pre := List.append_cancel_right heq
      have hcount : (contents.flatMap lines).length = contents.length := by
        rw [hflat, hpre.length_eq, hlen]
      obtain ⟨hsingle, hself⟩ := lines_singleton_of_length hcount
      rw [← hflat, hself] at hpre
      refine List.forall₂_iff_get.mpr ⟨hpre.length_eq, fun i hi hi' => ⟨?_, ?_⟩⟩
      · exact hsingle _ (List.get_mem contents ⟨i, hi⟩)
      · exact (List.forall₂_iff_get.mp hpre).2 i hi hi'
  · intro h
    have hself : contents.flatMap lines = contents := by
      clear hlen hlines
      induction h with
      | nil => rfl
      | cons hfirst _ ih => rw [List.flatMap_cons, hfirst.1, ih]; rfl
    have hfields := h.imp fun _ _ hcf => hcf.2
    rw [parse, hlines, hself]
    simp only [readFields_eq_some_iff.mpr ⟨contents, rfl, hfields⟩, if_pos]

/-- Trimming keeps a value that has no white space at either end. -/
theorem trim_of_isFieldValue {value : List UInt8} (h : IsFieldValue value) :
    trim value = value := by
  obtain ⟨_, hhead, hlast⟩ := h
  have hfront : value.dropWhile isOws = value := by
    cases value with
    | nil => rfl
    | cons b bs =>
      have hb : isOws b = false := hhead b rfl
      simp [hb]
  have hback : value.rdropWhile isOws = value := by
    rw [List.rdropWhile_eq_self_iff]
    intro hne
    have hl := hlast (value.getLast hne) (by rw [List.getLast?_eq_getLast_of_ne_nil hne]; rfl)
    simp [hl]
  rw [trim, hfront, hback]

/-- The space printed after the colon is dropped with the other white space. -/
theorem trim_space (value : List UInt8) : trim (32 :: value) = trim value := rfl

/-- Trimming leaves part of the bytes. -/
theorem trim_isInfix (value : List UInt8) : trim value <:+: value :=
  (List.rdropWhile_prefix isOws (value.dropWhile isOws)).isInfix.trans
    (List.dropWhile_suffix isOws).isInfix

/-- A trimmed value made of allowed bytes is a printed field value. -/
theorem trim_isFieldValue {value : List UInt8} (h : ∀ b ∈ value, isFieldByte b = true) :
    IsFieldValue (trim value) := by
  refine ⟨fun b hb => h b ((trim_isInfix value).subset hb), ?_, ?_⟩
  · intro b hb
    obtain ⟨t, ht⟩ := List.head?_eq_some_iff.mp hb
    obtain ⟨r, hr⟩ := List.rdropWhile_prefix isOws (value.dropWhile isOws)
    have hhead := List.head?_dropWhile_not isOws value
    rw [trim] at ht
    rw [← hr, ht] at hhead
    simpa using hhead
  · intro b hb
    have hne : trim value ≠ [] := by
      intro hnil
      simp [hnil] at hb
    have hlast := List.rdropWhile_last_not isOws (value.dropWhile isOws) hne
    rw [List.getLast?_eq_getLast_of_ne_nil hne, Option.mem_some_iff] at hb
    rw [← hb]
    exact Bool.eq_false_iff.mpr hlast

/-- A proper field is one line, which is read back as the field. -/
theorem parseField_fieldContent {f : Field} (hname : IsToken f.name)
    (hvalue : IsFieldValue f.value) :
    lines (fieldContent f) = [fieldContent f] ∧ parseField (fieldContent f) = some f := by
  have hrest : ∀ b ∈ 32 :: f.value, isFieldByte b = true := by
    rw [List.forall_mem_cons]
    exact ⟨by decide, hvalue.1⟩
  constructor
  · apply lines_of_no_cr
    intro hcr
    rw [fieldContent, List.mem_append, List.mem_cons] at hcr
    rcases hcr with hcr | hcr | hcr
    · exact absurd (hname.2 13 hcr) (by decide)
    · exact absurd hcr (by decide)
    · exact absurd (hrest 13 hcr) (by decide)
  · rw [fieldContent, parseField_of_token hname hrest, trim_space, trim_of_isFieldValue hvalue]

/-- What is read from a line that prints a token and some bytes: the token, and
a proper value that is part of the bytes. -/
theorem parseField_fieldContent_eq_some {name bytes : List UInt8} {f : Field}
    (hname : IsToken name) (h : parseField (fieldContent ⟨name, bytes⟩) = some f) :
    f.name = name ∧ IsFieldValue f.value ∧ f.value.length ≤ bytes.length := by
  obtain ⟨rest, hline, hfname, hrest, hvalue⟩ := parseField_eq_some h
  have hsame : f.name = name := by
    have htake := congrArg (List.takeWhile (· ≠ 58)) hline
    rw [fieldContent, hname.takeWhile, hfname.takeWhile] at htake
    exact htake.symm
  rw [fieldContent, hsame, List.append_cancel_left_eq, List.cons.injEq] at hline
  refine ⟨hsame, ?_, ?_⟩
  · rw [hvalue]
    exact trim_isFieldValue hrest
  · rw [hvalue, ← hline.2, trim_space]
    exact (trim_isInfix bytes).length_le

/-- There are fields related one by one to a list when each element has one. -/
theorem exists_forall₂_iff {α β : Type*} {R : α → β → Prop} {l : List α} :
    (∃ l', List.Forall₂ R l l') ↔ ∀ a ∈ l, ∃ b, R a b := by
  induction l with
  | nil => simp
  | cons a l ih =>
    rw [List.forall_mem_cons, ← ih]
    constructor
    · rintro ⟨_, hfirst | ⟨hfirst, hrest⟩⟩
      exact ⟨⟨_, hfirst⟩, _, hrest⟩
    · rintro ⟨⟨b, hfirst⟩, l', hrest⟩
      exact ⟨b :: l', .cons hfirst hrest⟩

/-- **Reading the fields of given items.** A block that prints proper fields and
then one content for each item reads back as these fields followed by a field
that fits each item, exactly when every item's content is a line with such a field. -/
theorem exists_parse_print_iff {α : Type*} {start : List UInt8} {fixed : List Field}
    {items : List α} {content : α → List UInt8} {Fits : α → Field → Prop}
    (hstart : lines start = [start])
    (hfixed : ∀ f ∈ fixed, IsToken f.name ∧ IsFieldValue f.value) :
    (∃ fs, List.Forall₂ Fits items fs ∧
      parse (print start (fixed.map fieldContent ++ items.map content)) =
        some (start, fixed ++ fs)) ↔
      ∀ a ∈ items, ∃ f, Fits a f ∧ lines (content a) = [content a] ∧
        parseField (content a) = some f := by
  have hprefix : ∀ fs : List Field,
      List.Forall₂ (fun c f => lines c = [c] ∧ parseField c = some f)
        (fixed.map fieldContent ++ items.map content) (fixed ++ fs) ↔
      List.Forall₂ (fun c f => lines c = [c] ∧ parseField c = some f) (items.map content) fs := by
    intro fs
    clear hstart
    induction fixed with
    | nil => simp
    | cons f fixed ih =>
      rw [List.forall_mem_cons] at hfixed
      rw [List.map_cons, List.cons_append, List.cons_append, List.forall₂_cons, ih hfixed.2]
      exact and_iff_right (parseField_fieldContent hfixed.1.1 hfixed.1.2)
  rw [← exists_forall₂_iff]
  constructor
  · rintro ⟨fs, hfits, hparse⟩
    have hlen : (fixed ++ fs).length = (fixed.map fieldContent ++ items.map content).length := by
      simp [hfits.length_eq]
    rw [parse_print_iff hstart hlen, hprefix, List.forall₂_map_left_iff] at hparse
    refine ⟨fs, List.forall₂_iff_get.mpr ⟨hfits.length_eq, fun i hi hi' => ⟨?_, ?_⟩⟩⟩
    · exact (List.forall₂_iff_get.mp hfits).2 i hi hi'
    · exact (List.forall₂_iff_get.mp hparse).2 i hi hi'
  · rintro ⟨fs, hall⟩
    have hlen : (fixed ++ fs).length = (fixed.map fieldContent ++ items.map content).length := by
      simp [hall.length_eq]
    refine ⟨fs, hall.imp fun _ _ h => h.1, ?_⟩
    rw [parse_print_iff hstart hlen, hprefix, List.forall₂_map_left_iff]
    exact hall.imp fun _ _ h => h.2

end HeaderBlock
