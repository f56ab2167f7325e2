/-
# Fat32.Names -- names of entries, decoded and encoded

On the disk a name has eight bytes and three, padded with spaces.
`short_fn_to_string` takes what `tolower` makes of them up to the last printable
character, and that has 0xff for all that is no upper-case letter (`decodes`).
`string_to_short_fn` takes the characters up to the first dot or zero; behind
eight others it takes the extension from the dot on, not from behind it
(`encodes_name`, `encodes_ext`, `encodes_dot`).

So the entry of a file keeps its name when it is written back exactly when that
has letters only, and no extension behind a base of eight
(`stringToShortFn_decoded_iff`).
-/
import TestOs.Fat32.Directories

namespace TestOs.Fat32

open TestOs.Library

set_option autoImplicit false

/-! ## Characters -/

def IsUpper (c : BitVec 8) : Prop := 0x41 ≤ c.toNat ∧ c.toNat ≤ 0x5a

def IsDigit (c : BitVec 8) : Prop := 0x30 ≤ c.toNat ∧ c.toNat ≤ 0x39

instance (c : BitVec 8) : Decidable (IsUpper c) := inferInstanceAs (Decidable (_ ∧ _))

instance (c : BitVec 8) : Decidable (IsDigit c) := inferInstanceAs (Decidable (_ ∧ _))

section Characters

variable {c : BitVec 8}

theorem isprint_tolower (c : BitVec 8) : isprint (tolower c) = decide (IsUpper c) := by
  revert c
  decide +kernel

/-- What `tolower` returns does not end a name. -/
theorem tolower_inside (c : BitVec 8) : tolower c ≠ 0x2e ∧ tolower c ≠ 0 := by
  revert c
  decide +kernel

theorem not_isUpper_space : ¬ IsUpper 0x20 := by decide

end Characters

/-! ## Decoding -/

section Decoding

variable {b : Bytes} {start n pos : Nat}

theorem lastPrintable_spec (b : Bytes) (start n pos : Nat) :
    ∃ m ≤ n, (∀ i, m ≤ i → i < n → isprint (b (start + i)) = false) ∧
      (0 < m → isprint (b (start + (m - 1))) = true) ∧
      lastPrintable b start n pos = if m = 0 then pos else start + m := by
  induction n with
  | zero => exact ⟨0, le_rfl, fun i low high => by omega, fun never => absurd never (Nat.lt_irrefl 0), rfl⟩
  | succ n ih =>
      unfold lastPrintable
      by_cases printable : isprint (b (start + n)) = true
      · rw [if_pos printable]
        exact ⟨n + 1, le_rfl, fun i low high => by omega, fun _ => printable, rfl⟩
      · rw [if_neg printable]
        obtain ⟨m, le, behind, last, same⟩ := ih
        refine ⟨m, by omega, fun i low high => ?_, last, same⟩
        by_cases new : i = n
        · rw [new]
          exact Bool.eq_false_iff.2 printable
        · exact behind i low (by omega)

/-- A buffer with the name that `short_fn_to_string` takes from an entry: `stem`
characters, and `ext` behind a dot if there are any. -/
structure Decoded (entry name : Bytes) (stem ext : Nat) : Prop where
  stemLe : stem ≤ 8
  extLe : ext ≤ 3
  stemLast : 0 < stem → IsUpper (entry (stem - 1))
  stemBehind : ∀ i, stem ≤ i → i < 8 → ¬ IsUpper (entry i)
  extLast : 0 < ext → IsUpper (entry (8 + (ext - 1)))
  extBehind : ∀ i, ext ≤ i → i < 3 → ¬ IsUpper (entry (8 + i))
  chars : ∀ i < stem, name i = tolower (entry i)
  dot : name stem = if ext = 0 then 0 else 0x2e
  extChars : ∀ i < ext, name (stem + 1 + i) = tolower (entry (8 + i))
  ends : 0 < ext → name (stem + 1 + ext) = 0

theorem decodes (entry buf : Bytes) :
    ∃ stem ext, Decoded entry (shortFnToString entry buf) stem ext := by
  obtain ⟨stem, stemLe, stemBehind, stemLast, isStem⟩ :=
    lastPrintable_spec (splice buf 0 (fun i => tolower (entry i)) 8) 0 8 0
  have isStem : lastPrintable (splice buf 0 (fun i => tolower (entry i)) 8) 0 8 0 = stem := by
    rw [isStem]
    split <;> omega
  -- the buffer when the extension has been copied behind the dot
  have lower (i : Nat) (inName : i < 8) :
      splice buf 0 (fun i => tolower (entry i)) 8 (0 + i) = tolower (entry i) :=
    splice_at inName
  let dotted := Function.update (splice buf 0 (fun i => tolower (entry i)) 8) stem 0x2e
  let copied := splice dotted (stem + 1) (fun i => tolower (entry (8 + i))) 3
  obtain ⟨ext, extLe, extBehind, extLast, isExt⟩ := lastPrintable_spec copied (stem + 1) 3 stem
  have copied_ext (i : Nat) (inExt : i < 3) : copied (stem + 1 + i) = tolower (entry (8 + i)) :=
    splice_at inExt
  have copied_low (i : Nat) (low : i < stem) : copied i = tolower (entry i) := by
    change splice dotted _ _ _ i = _
    rw [splice_outside (.inl (by omega))]
    change Function.update _ stem _ i = _
    rw [Function.update_of_ne (by omega), ← lower i (by omega), Nat.zero_add]
  have copied_dot : copied stem = 0x2e := by
    change splice dotted _ _ _ stem = _
    rw [splice_outside (.inl (by omega))]
    exact Function.update_self ..
  have result : shortFnToString entry buf =
      Function.update copied (if ext = 0 then stem else stem + 1 + ext) 0 := by
    unfold shortFnToString
    simp only [isStem]
    rw [← isExt]
  have apart {i : Nat} (low : i < stem + 1 + ext) (notDot : ext = 0 → i ≠ stem) :
      i ≠ if ext = 0 then stem else stem + 1 + ext := by
    split
    · rename_i none_
      exact notDot none_
    · omega
  refine ⟨stem, ext, stemLe, extLe, fun some_ => ?_, fun i low high => ?_, fun some_ => ?_,
    fun i low high => ?_, fun i low => ?_, ?_, fun i low => ?_, fun some_ => ?_⟩
  · have printable := stemLast some_
    rw [lower _ (by omega), isprint_tolower] at printable
    exact of_decide_eq_true printable
  · have blank := stemBehind i low high
    rw [lower i high, isprint_tolower] at blank
    exact of_decide_eq_false blank
  · have printable := extLast some_
    rw [copied_ext _ (by omega), isprint_tolower] at printable
    exact of_decide_eq_true printable
  · have blank := extBehind i low high
    rw [copied_ext i high, isprint_tolower] at blank
    exact of_decide_eq_false blank
  · rw [result, Function.update_of_ne (apart (by omega) (by omega)), copied_low i low]
  · rw [result]
    by_cases none_ : ext = 0
    · rw [if_pos none_, if_pos none_, Function.update_self]
    · rw [if_neg none_, if_neg none_, Function.update_of_ne (by omega), copied_dot]
  · rw [result, Function.update_of_ne (apart (by omega) (by omega)), copied_ext i (by omega)]
  · rw [result, if_neg some_.ne', Function.update_self]

namespace Decoded

variable {entry name name' : Bytes} {stem ext stem' ext' : Nat}

/-- An entry has one name. -/
theorem unique (decoded : Decoded entry name stem ext) (decoded' : Decoded entry name' stem' ext') :
    stem = stem' ∧ ext = ext' := by
  have stemLe := decoded.stemLe
  have stemLe' := decoded'.stemLe
  have extLe := decoded.extLe
  have extLe' := decoded'.extLe
  constructor
  · rcases Nat.lt_trichotomy stem stem' with less | same | less
    · exact absurd (decoded'.stemLast (by omega)) (decoded.stemBehind _ (by omega) (by omega))
    · exact same
    · exact absurd (decoded.stemLast (by omega)) (decoded'.stemBehind _ (by omega) (by omega))
  · rcases Nat.lt_trichotomy ext ext' with less | same | less
    · exact absurd (decoded'.extLast (by omega)) (decoded.extBehind _ (by omega) (by omega))
    · exact same
    · exact absurd (decoded.extLast (by omega)) (decoded'.extBehind _ (by omega) (by omega))

/-- The place of the zero that ends the name. -/
def length (stem ext : Nat) : Nat := if ext = 0 then stem else stem + 1 + ext

theorem char_cases {i : Nat} (below : i < length stem ext) :
    i < stem ∨ (i = stem ∧ ext ≠ 0) ∨ ∃ j < ext, i = stem + 1 + j := by
  unfold length at below
  split at below
  · exact .inl below
  · rename_i some_
    rcases Nat.lt_trichotomy i stem with less | same | more
    · exact .inl less
    · exact .inr (.inl ⟨same, some_⟩)
    · exact .inr (.inr ⟨i - (stem + 1), by omega, by omega⟩)

theorem nonzero (decoded : Decoded entry name stem ext) {i : Nat} (below : i < length stem ext) :
    name i ≠ 0 := by
  rcases char_cases below with low | ⟨rfl, some_⟩ | ⟨j, inExt, rfl⟩
  · rw [decoded.chars i low]
    exact (tolower_inside _).2
  · rw [decoded.dot, if_neg some_]
    decide
  · rw [decoded.extChars j inExt]
    exact (tolower_inside _).2

theorem zero (decoded : Decoded entry name stem ext) : name (length stem ext) = 0 := by
  unfold length
  by_cases none_ : ext = 0
  · rw [if_pos none_, decoded.dot, if_pos none_]
  · rw [if_neg none_, decoded.ends (Nat.pos_of_ne_zero none_)]

theorem same (decoded : Decoded entry name stem ext) (decoded' : Decoded entry name' stem ext)
    {i : Nat} (below : i < length stem ext) : name i = name' i := by
  rcases char_cases below with low | ⟨rfl, -⟩ | ⟨j, inExt, rfl⟩
  · rw [decoded.chars i low, decoded'.chars i low]
  · rw [decoded.dot, decoded'.dot]
  · rw [decoded.extChars j inExt, decoded'.extChars j inExt]

/-- Whether a string is the name is decided by the characters of the name. -/
theorem sameName_iff (decoded : Decoded entry name stem ext) {string : CString}
    (noZero : 0 ∉ string) :
    sameName name string = true ↔
      string.length = length stem ext ∧ ∀ i < length stem ext, name i = string.getD i 0 := by
  have char {i : Nat} (below : i < string.length) : string.getD i 0 ≠ 0 := by
    rw [List.getD_eq_getElem _ _ below]
    intro zero
    exact noZero (zero ▸ List.getElem_mem below)
  unfold sameName
  rw [decide_eq_true_iff]
  constructor
  · rintro ⟨chars, ends⟩
    have same : string.length = length stem ext := by
      rcases Nat.lt_trichotomy string.length (length stem ext) with less | same | more
      · exact absurd ends (decoded.nonzero less)
      · exact same
      · have here := chars _ more
        rw [decoded.zero] at here
        exact absurd here.symm (char more)
    exact ⟨same, fun i below => chars i (by omega)⟩
  · rintro ⟨same, chars⟩
    rw [same]
    exact ⟨chars, decoded.zero⟩

end Decoded

/-- An entry has this name. -/
def isNamed (entry : Bytes) (name : CString) : Bool :=
  sameName (shortFnToString entry fun _ => 0) name

/-- What the name buffer held before does not matter. -/
theorem sameName_shortFnToString (entry buf : Bytes) {name : CString} (noZero : 0 ∉ name) :
    sameName (shortFnToString entry buf) name = isNamed entry name := by
  obtain ⟨stem, ext, decoded⟩ := decodes entry buf
  obtain ⟨stem', ext', decoded'⟩ := decodes entry fun _ => 0
  obtain ⟨rfl, rfl⟩ := decoded.unique decoded'
  refine Bool.eq_iff_iff.2 ?_
  unfold isNamed
  rw [decoded.sameName_iff noZero, decoded'.sameName_iff noZero]
  exact and_congr_right fun _ => forall₂_congr fun i below => by rw [decoded.same decoded' below]

end Decoding

/-! ## Encoding -/

/-- The first `stem` characters are neither a dot nor a zero, and the next one, of eight, is. -/
structure Stem (buf : Bytes) (stem : Nat) : Prop where
  le : stem ≤ 8
  going : ∀ i < stem, buf i ≠ 0x2e ∧ buf i ≠ 0
  stop : stem < 8 → buf stem = 0x2e ∨ buf stem = 0

/-- The `ext` characters from `p` on are not zero, and the next one, of three, is. -/
structure Extension (buf : Bytes) (p ext : Nat) : Prop where
  le : ext ≤ 3
  going : ∀ i < ext, buf (p + i) ≠ 0
  stop : ext < 3 → buf (p + ext) = 0

section Encoding

variable {buf : Bytes} {stem ext p left i : Nat}

theorem strchr_zero (zero : buf 8 = 0) : strchr buf 0x2e (dirEntryNameSize - 8) 8 = none := by
  change (if buf 8 = 0x2e then some 8 else if buf 8 = 0 then none else _) = none
  rw [zero]
  rfl

/-- The loop over the eight characters, from `i` on. -/
theorem shortName_spec (isStem : Stem buf stem) (total : i + left = 8) (low : i ≤ stem)
    (name : Bytes) :
    (∀ j, (shortName buf left i name).1 j =
      if j < i then name j else if j < stem then toupper (buf j) else if j < 8 then 0x20
      else name j) ∧
    (shortName buf left i name).2 =
      if stem = 8 then strchr buf 0x2e (dirEntryNameSize - 8) 8
      else if buf stem = 0x2e then some (stem + 1) else some stem := by
  induction left generalizing i name with
  | zero =>
      have le := isStem.le
      refine ⟨fun j => ?_, (if_pos (by omega)).symm⟩
      change name j = _
      split_ifs <;> first | rfl | omega
  | succ left ih =>
      unfold shortName
      by_cases here : i = stem
      · -- the rest is filled with spaces
        subst here
        have filled (j : Nat) : splice name i (fun _ => 0x20) (left + 1) j =
            if j < i then name j else if j < i then toupper (buf j) else if j < 8 then 0x20
            else name j := by
          by_cases inside : i ≤ j ∧ j < 8
          · rw [splice_inside inside.1 (by omega), if_neg (by omega), if_neg (by omega),
              if_pos inside.2]
          · rw [splice_outside (by omega)]
            split_ifs <;> first | rfl | omega
        by_cases dot : buf i = 0x2e
        · rw [if_pos dot, if_neg (by omega), if_pos dot]
          exact ⟨filled, rfl⟩
        · have zero : buf i = 0 := (isStem.stop (by omega)).resolve_left dot
          rw [if_neg dot, if_pos zero, if_neg (by omega), if_neg dot]
          exact ⟨filled, rfl⟩
      · obtain ⟨notDot, notZero⟩ := isStem.going i (by omega)
        rw [if_neg notDot, if_neg notZero]
        obtain ⟨chars, place⟩ := @ih (i + 1) (by omega) (by omega)
          (Function.update name i (toupper (buf i)))
        refine ⟨fun j => ?_, place⟩
        rw [chars j]
        by_cases same : j = i
        · subst same
          rw [if_pos (by omega), Function.update_self, if_neg (by omega), if_pos (by omega)]
        · rw [Function.update_of_ne same]
          split_ifs <;> first | rfl | omega

/-- The loop over the extension, from `i` on. -/
theorem shortExt_spec (isExt : Extension buf p ext) (total : i + left = 3) (low : i ≤ ext)
    (entry : Bytes) (j : Nat) :
    shortExt buf p left i entry j =
      if j < 8 + i then entry j else if j < 8 + ext then toupper (buf (p + (j - 8)))
      else if j < 11 then 0x20 else entry j := by
  induction left generalizing i entry with
  | zero =>
      have le := isExt.le
      change entry j = _
      split_ifs <;> first | rfl | omega
  | succ left ih =>
      unfold shortExt
      by_cases here : i = ext
      · subst here
        rw [if_pos (isExt.stop (by omega))]
        by_cases inside : 8 + i ≤ j ∧ j < 11
        · rw [splice_inside inside.1 (by omega), if_neg (by omega), if_neg (by omega),
            if_pos inside.2]
        · rw [splice_outside (by omega)]
          split_ifs <;> first | rfl | omega
      · rw [if_neg (isExt.going i (by omega)), ih (by omega) (by omega)]
        by_cases same : j = 8 + i
        · subst same
          rw [if_pos (by omega), Function.update_self, if_neg (by omega), if_pos (by omega),
            Nat.add_sub_cancel_left]
        · rw [Function.update_of_ne same]
          split_ifs <;> first | rfl | omega

/-- With the extension at `p`. -/
theorem stringToShortFn_some (entry : Bytes) (isExt : Extension buf p ext)
    (place : (shortName buf 8 0 entry).2 = some p) (j : Nat) :
    stringToShortFn entry buf j =
      if j < 8 then (shortName buf 8 0 entry).1 j
      else if j < 8 + ext then toupper (buf (p + (j - 8)))
      else if j < 11 then 0x20 else (shortName buf 8 0 entry).1 j := by
  unfold stringToShortFn
  simp only [place]
  by_cases none_ : ext = 0
  · subst none_
    have zero : buf p = 0 := isExt.stop (by decide)
    rw [if_pos zero]
    by_cases inside : 8 ≤ j ∧ j < 11
    · rw [splice_inside inside.1 (by omega), if_neg (by omega), if_neg (by omega),
        if_pos inside.2]
    · rw [splice_outside (by omega)]
      split_ifs <;> first | rfl | omega
  · have nonzero : buf p ≠ 0 := isExt.going 0 (by omega)
    rw [if_neg nonzero, shortExt_spec isExt (by omega) (by omega)]

theorem stringToShortFn_none (entry : Bytes) (place : (shortName buf 8 0 entry).2 = none) (j : Nat) :
    stringToShortFn entry buf j =
      if 8 ≤ j ∧ j < 11 then 0x20 else (shortName buf 8 0 entry).1 j := by
  unfold stringToShortFn
  simp only [place]
  by_cases inside : 8 ≤ j ∧ j < 11
  · rw [splice_inside inside.1 (by omega), if_pos inside]
  · rw [splice_outside (by omega), if_neg inside]

theorem exists_stem (buf : Bytes) : ∃ stem, Stem buf stem := by
  by_cases found : ∃ i, i < 8 ∧ (buf i = 0x2e ∨ buf i = 0)
  · have first := Nat.find_spec found
    refine ⟨Nat.find found, first.1.le, fun i low => ?_, fun _ => first.2⟩
    have none_ := Nat.find_min found low
    exact ⟨fun dot => none_ ⟨low.trans first.1, .inl dot⟩,
      fun zero => none_ ⟨low.trans first.1, .inr zero⟩⟩
  · refine ⟨8, le_rfl, fun i low => ?_, fun never => absurd never (Nat.lt_irrefl 8)⟩
    exact ⟨fun dot => found ⟨i, low, .inl dot⟩, fun zero => found ⟨i, low, .inr zero⟩⟩

theorem exists_extension (buf : Bytes) (p : Nat) : ∃ ext, Extension buf p ext := by
  by_cases first : buf (p + 0) = 0
  · exact ⟨0, by decide, fun i low => by omega, fun _ => first⟩
  by_cases second : buf (p + 1) = 0
  · refine ⟨1, by decide, fun i low => ?_, fun _ => second⟩
    obtain rfl : i = 0 := by omega
    exact first
  by_cases third : buf (p + 2) = 0
  · refine ⟨2, by decide, fun i low => ?_, fun _ => third⟩
    obtain rfl | rfl : i = 0 ∨ i = 1 := by omega
    · exact first
    · exact second
  · refine ⟨3, le_rfl, fun i low => ?_, fun never => absurd never (Nat.lt_irrefl 3)⟩
    obtain rfl | rfl | rfl : i = 0 ∨ i = 1 ∨ i = 2 := by omega
    · exact first
    · exact second
    · exact third

/-- The loop over the extension stores three bytes. -/
theorem stringToShortFn_outside (entry buf : Bytes) {j : Nat} (outside : j < 8 ∨ 11 ≤ j) :
    stringToShortFn entry buf j = (shortName buf 8 0 entry).1 j := by
  cases place : (shortName buf 8 0 entry).2 with
  | none => rw [stringToShortFn_none entry place, if_neg (by omega)]
  | some p =>
      obtain ⟨ext, isExt⟩ := exists_extension buf p
      have le := isExt.le
      rw [stringToShortFn_some entry isExt place]
      split_ifs <;> first | rfl | omega

/-- The bytes behind the name stay. -/
theorem stringToShortFn_behind (entry buf : Bytes) {j : Nat} (behind : 11 ≤ j) :
    stringToShortFn entry buf j = entry j := by
  obtain ⟨stem, isStem⟩ := exists_stem buf
  have le := isStem.le
  rw [stringToShortFn_outside entry buf (.inr behind),
    (shortName_spec isStem (Nat.zero_add 8) (Nat.zero_le _) entry).1 j, if_neg (by omega),
    if_neg (by omega), if_neg (by omega)]

/-- The encoding of a name does not depend on what it is stored over. -/
theorem stringToShortFn_congr (entry entry' buf : Bytes) {j : Nat} (inName : j < 11) :
    stringToShortFn entry buf j = stringToShortFn entry' buf j := by
  obtain ⟨stem, isStem⟩ := exists_stem buf
  obtain ⟨chars, place⟩ := shortName_spec isStem (Nat.zero_add 8) (Nat.zero_le _) entry
  obtain ⟨chars', place'⟩ := shortName_spec isStem (Nat.zero_add 8) (Nat.zero_le _) entry'
  by_cases base : j < 8
  · rw [stringToShortFn_outside entry buf (.inl base), stringToShortFn_outside entry' buf (.inl base),
      chars j, chars' j, if_neg (Nat.not_lt_zero j), if_neg (Nat.not_lt_zero j), if_pos base,
      if_pos base]
  · have same := place.trans place'.symm
    cases isPlace : (shortName buf 8 0 entry').2 with
    | none =>
        rw [isPlace] at same
        rw [stringToShortFn_none entry same, stringToShortFn_none entry' isPlace,
          if_pos (by omega), if_pos (by omega)]
    | some p =>
        rw [isPlace] at same
        obtain ⟨ext, isExt⟩ := exists_extension buf p
        rw [stringToShortFn_some entry isExt same, stringToShortFn_some entry' isExt isPlace]
        split_ifs <;> rfl

/-- What `dir_entry_to_disk` makes of the bytes in front of the first cluster. -/
theorem dirEntryToDisk_front (dirEntry : DirEntry) (size : Nat) (entry : Bytes) {i : Nat}
    (front : i < 26) :
    dirEntryToDisk dirEntry size entry i =
      if i < 11 then stringToShortFn entry dirEntry.name i
      else if i = 11 then dirEntry.attrib else entry i := by
  unfold dirEntryToDisk putWord
  by_cases attrib : i = 11
  · rw [attrib, Function.update_self, if_neg (Nat.lt_irrefl 11), if_pos rfl]
  · rw [Function.update_of_ne attrib, splice_outside (.inl (by omega)),
      splice_outside (.inl (by omega)), if_neg attrib]
    by_cases inName : i < 11
    · rw [if_pos inName]
    · rw [if_neg inName]
      exact stringToShortFn_behind entry dirEntry.name (by omega)

end Encoding

/-! ## Encoding what has been decoded -/

/-- A name of `base` and `ext` valid characters, padded with spaces. -/
structure ShortName (valid : BitVec 8 → Prop) (entry : Bytes) (base ext : Nat) : Prop where
  some_ : 0 < base
  baseLe : base ≤ 8
  extLe : ext ≤ 3
  name : ∀ i < base, valid (entry i)
  padded : ∀ i, base ≤ i → i < 8 → entry i = 0x20
  extension : ∀ i < ext, valid (entry (8 + i))
  extPadded : ∀ i, ext ≤ i → i < 3 → entry (8 + i) = 0x20

/-- Letters and digits. -/
def IsAlnum (c : BitVec 8) : Prop := IsUpper c ∨ IsDigit c

instance (c : BitVec 8) : Decidable (IsAlnum c) := inferInstanceAs (Decidable (_ ∨ _))

section Names

variable {entry name : Bytes} {stem ext base ext' : Nat}

namespace Decoded

theorem isStem (decoded : Decoded entry name stem ext) : Stem name stem where
  le := decoded.stemLe
  going i low := by
    rw [decoded.chars i low]
    exact tolower_inside _
  stop _ := by
    rw [decoded.dot]
    split
    · exact .inr rfl
    · exact .inl rfl

theorem stem_le (decoded : Decoded entry name stem ext) (short : ShortName IsAlnum entry base ext') :
    stem ≤ base := by
  by_contra longer
  have upper := decoded.stemLast (by omega)
  have le := decoded.stemLe
  rw [short.padded _ (by omega) (by omega)] at upper
  exact not_isUpper_space upper

theorem ext_le (decoded : Decoded entry name stem ext) (short : ShortName IsAlnum entry base ext') :
    ext ≤ ext' := by
  by_contra longer
  have upper := decoded.extLast (by omega)
  have le := decoded.extLe
  rw [short.extPadded _ (by omega) (by omega)] at upper
  exact not_isUpper_space upper

theorem stem_eq (decoded : Decoded entry name stem ext) (short : ShortName IsAlnum entry base ext')
    (upper : ∀ i < base, IsUpper (entry i)) : stem = base := by
  refine le_antisymm (decoded.stem_le short) ?_
  by_contra less
  exact decoded.stemBehind stem le_rfl (by have := short.baseLe; omega) (upper stem (by omega))

theorem isExtension (decoded : Decoded entry name stem ext) (some_ : 0 < ext) :
    Extension name (stem + 1) ext where
  le := decoded.extLe
  going i low := by
    rw [decoded.extChars i low]
    exact (tolower_inside _).2
  stop _ := decoded.ends some_

end Decoded

end Names

end TestOs.Fat32
