/-
# Fat32.Listing -- what a directory lists

The command `dir` reads a directory entry by entry until there is none left
(`readDir`).  It gets the valid entries in their order, each with its name, its
attribute, its first cluster and its size (`readDir_items`): what the row of the
directory's slots shows (`shownBy`).  Nothing of what the structures held before
gets into a name (`cString_shortFnToString`).
-/
import TestOs.Library.Slots
import TestOs.Fat32.Descending

namespace TestOs.Fat32

open TestOs.Library Prog

set_option autoImplicit false

/-! ## Items -/

/-- What is read of an entry. -/
structure Item where
  name : CString
  attrib : BitVec 8
  firstCluster : BitVec 16
  size : BitVec 32
  deriving DecidableEq, Repr

/-- The string in the name field of an entry in memory. -/
def cString (buf : Bytes) : CString := ((List.range dirEntryNameSize).map buf).takeWhile (· ≠ 0)

def DirEntry.item (entry : DirEntry) : Item where
  name := cString entry.name
  attrib := entry.attrib
  firstCluster := entry.firstCluster.setWidth 16
  size := BitVec.ofNat 32 entry.size

/-- The item of an entry on the disk. -/
def itemOf (entry : Bytes) : Item where
  name := cString (shortFnToString entry fun _ => 0)
  attrib := entryAttrib entry
  firstCluster := entryFirstCluster entry
  size := entryFileSize entry

/-- What a directory lists of an entry. -/
def shownBy (entry : Bytes) : Option Item := if isValidEntry entry then some (itemOf entry) else none

/-- The loop of `dir` over `disk_dir_read`, with at most `left` entries to go. -/
def readDir : Nat → FatDir → DirEntry → List DirEntry
  | 0, _, _ => []
  | left + 1, dir, entry =>
      match fat32DirRead dir entry with
      | (none, _) => []
      | (some found, dir) => found :: readDir left dir found

section Items

variable {entry entry' buf name : Bytes} {stem ext : Nat}

theorem Decoded.cString (decoded : Decoded entry name stem ext) :
    cString name = (List.range (Decoded.length stem ext)).map name := by
  have below : Decoded.length stem ext < dirEntryNameSize := by
    have := decoded.stemLe
    have := decoded.extLe
    unfold Decoded.length dirEntryNameSize
    split <;> omega
  have before : ∀ c ∈ (List.range (Decoded.length stem ext)).map name, decide (c ≠ 0) = true := by
    intro c member
    obtain ⟨i, inName, rfl⟩ := List.mem_map.1 member
    exact decide_eq_true (decoded.nonzero (List.mem_range.1 inName))
  unfold Fat32.cString
  rw [range_split below, List.map_append, List.takeWhile_append_of_pos before, List.map_cons,
    decoded.zero, List.takeWhile_cons_of_neg (by simp), List.append_nil]

/-- What the name buffer held before is not in the name. -/
theorem cString_shortFnToString (entry buf : Bytes) :
    cString (shortFnToString entry buf) = cString (shortFnToString entry fun _ => 0) := by
  obtain ⟨stem, ext, decoded⟩ := decodes entry buf
  obtain ⟨stem', ext', decoded'⟩ := decodes entry fun _ => 0
  obtain ⟨rfl, rfl⟩ := decoded.unique decoded'
  rw [decoded.cString, decoded'.cString]
  exact List.map_congr_left fun i inName => decoded.same decoded' (List.mem_range.1 inName)


theorem itemOf_congr (same : ∀ k < diskEntrySize, entry k = entry' k) : itemOf entry = itemOf entry' := by
  have size : diskEntrySize = 32 := rfl
  unfold itemOf entryAttrib entryFirstCluster halfword entryFileSize
  rw [shortFnToString_congr fun i low => same i (by omega), same 11 (by omega), same 26 (by omega),
    same (26 + 1) (by omega), word_congr fun k _ high => same k (by omega)]

theorem shownBy_congr (same : ∀ k < diskEntrySize, entry k = entry' k) :
    shownBy entry = shownBy entry' := by
  unfold shownBy
  rw [itemOf_congr same, isValidEntry_congr fun i low => same i (low.trans (by decide))]

theorem isFreeEntry_congr (same : ∀ k < diskEntrySize, entry k = entry' k) :
    isFreeEntry entry = isFreeEntry entry' := by
  unfold isFreeEntry
  rw [same 0 (by decide)]

/-- A free entry is not listed. -/
theorem shownBy_free (free : isFreeEntry entry = true) : shownBy entry = none := by
  unfold shownBy isValidEntry
  simp [free]

end Items

/-! ## Reading to the end -/

section Reading

variable {dir : FatDir} {i : Nat} {found : DirEntry}

theorem FoundAt.item (isFound : FoundAt dir i found) : found.item = itemOf (dir.entry i) := by
  obtain ⟨leftover, rfl⟩ := isFound.read
  unfold DirEntry.item itemOf dirEntryFromDisk
  dsimp only
  rw [cString_shortFnToString]
  congr 1
  · apply BitVec.eq_of_toNat_eq
    simp only [BitVec.toNat_setWidth]
    have := (entryFirstCluster (dir.entry i)).isLt
    omega
  · rw [BitVec.ofNat_toNat, BitVec.setWidth_eq]

/-- The entries that are left, around the next one that is listed. -/
theorem shown_from {num j : Nat} (low : i ≤ j) (below : j < num)
    (skipped : ∀ k, i ≤ k → k < j → isValidEntry (dir.entry k) = false) :
    (List.range' i (num - i)).filterMap (fun k => shownBy (dir.entry k)) =
      (shownBy (dir.entry j)).toList ++
        (List.range' (j + 1) (num - (j + 1))).filterMap fun k => shownBy (dir.entry k) := by
  have split : List.range' i (num - i) =
      List.range' i (j - i) ++ j :: List.range' (j + 1) (num - (j + 1)) := by
    obtain ⟨a, rfl⟩ := Nat.exists_eq_add_of_le low
    obtain ⟨b, rfl⟩ := Nat.exists_eq_add_of_lt below
    have whole : i + a + b + 1 - i = a + (b + 1) := by omega
    have behind : i + a + b + 1 - (i + a + 1) = b := by omega
    rw [whole, behind, Nat.add_sub_cancel_left, ← List.range'_succ, List.range'_append_1]
  have none_ : (List.range' i (j - i)).filterMap (fun k => shownBy (dir.entry k)) = [] := by
    rw [List.filterMap_eq_nil_iff]
    intro k member
    obtain ⟨above, less⟩ := List.mem_range'_1.1 member
    unfold shownBy
    rw [skipped k above (by omega)]
    rfl
  rw [split, List.filterMap_append, none_, List.nil_append, List.filterMap_cons]
  cases shownBy (dir.entry j) <;> rfl

theorem readDir_from (left : Nat) (dir : FatDir) (entry : DirEntry) (enough : dir.num - dir.i < left) :
    (readDir left dir entry).map DirEntry.item =
      (List.range' dir.i (dir.num - dir.i)).filterMap fun k => shownBy (dir.entry k) := by
  induction left generalizing dir entry with
  | zero => omega
  | succ left ih =>
      unfold readDir
      rcases dirRead_spec dir entry with ⟨found, j, run, low, high, valid, isFound, skipped⟩ |
        ⟨⟨rest, run⟩, skipped⟩
      · have here : shownBy (dir.entry j) = some found.item := by
          unfold shownBy
          rw [if_pos valid, isFound.item]
        simp only [run, List.map_cons]
        rw [ih { dir with i := j + 1 } found (by dsimp only; omega), shown_from low high skipped, here]
        rfl
      · simp only [run, List.map_nil]
        symm
        rw [List.filterMap_eq_nil_iff]
        intro k member
        obtain ⟨above, less⟩ := List.mem_range'_1.1 member
        unfold shownBy
        rw [skipped k above (by omega)]
        rfl

/-- **A directory that has just been opened is read as the row of its valid entries.** -/
theorem readDir_items {entries : Nat → Bytes} (start : dir.i = 0)
    (same : ∀ i < dir.num, ∀ k < diskEntrySize, dir.entry i k = entries i k) (entry : DirEntry) :
    (readDir (dir.num - dir.i + 1) dir entry).map DirEntry.item =
      showing (fun i => shownBy (entries i)) dir.num := by
  rw [readDir_from _ dir entry (Nat.lt_succ_self _), start, Nat.sub_zero, ← List.range_eq_range']
  exact showing_congr fun i below => shownBy_congr (same i below)

end Reading

/-! ## Names that are listed as they were given -/

def IsLower (c : BitVec 8) : Prop := 0x61 ≤ c.toNat ∧ c.toNat ≤ 0x7a

instance (c : BitVec 8) : Decidable (IsLower c) := inferInstanceAs (Decidable (_ ∧ _))

/-- A name, with its extension behind a dot if it has one. -/
def dotted (base ext : CString) : CString := base ++ if ext = [] then [] else 0x2e :: ext

/-- The parts of a name of small letters that fits into an entry.  Behind eight of them there
is no extension. -/
structure PlainName (base ext : CString) : Prop where
  some_ : base ≠ []
  fits : base.length ≤ 8 ∧ ext.length ≤ 3
  short : base.length < 8 ∨ ext = []
  base : ∀ c ∈ base, IsLower c
  ext : ∀ c ∈ ext, IsLower c

section Plain

variable {base ext : CString}

theorem tolower_toupper {c : BitVec 8} (lower : IsLower c) :
    tolower (toupper c) = c ∧ IsUpper (toupper c) ∧ c ≠ 0x2e ∧ c ≠ 0 := by
  revert lower
  revert c
  decide

namespace PlainName

theorem length_le (plain : PlainName base ext) : (dotted base ext).length ≤ 12 := by
  obtain ⟨baseLe, extLe⟩ := plain.fits
  unfold dotted
  split <;> simp <;> omega

/-- The characters of the name in memory. -/
theorem entryName_base (plain : PlainName base ext) {i : Nat} (low : i < base.length) :
    entryName (dotted base ext) i = base[i] := by
  have baseLe := plain.fits.1
  unfold entryName dotted
  rw [if_pos (by unfold dirEntryNameSize; omega), List.getD_eq_getElem?_getD,
    List.getElem?_append_left low, List.getElem?_eq_getElem low]
  rfl

theorem entryName_dot (plain : PlainName base ext) :
    entryName (dotted base ext) base.length = if ext = [] then 0 else 0x2e := by
  have baseLe := plain.fits.1
  unfold entryName dotted
  rw [if_pos (by unfold dirEntryNameSize; omega), List.getD_eq_getElem?_getD,
    List.getElem?_append_right le_rfl, Nat.sub_self]
  split <;> rfl

theorem entryName_ext (plain : PlainName base ext) {i : Nat} (low : i < ext.length) :
    entryName (dotted base ext) (base.length + 1 + i) = ext[i] := by
  obtain ⟨baseLe, extLe⟩ := plain.fits
  have some_ : ext ≠ [] := by
    rintro rfl
    exact absurd low (Nat.not_lt_zero i)
  have short := plain.short.resolve_right some_
  unfold entryName dotted
  rw [if_pos (by unfold dirEntryNameSize; omega), if_neg some_, List.getD_eq_getElem?_getD,
    List.getElem?_append_right (by omega), show base.length + 1 + i - base.length = i + 1 by omega,
    List.getElem?_cons_succ, List.getElem?_eq_getElem low]
  rfl

theorem entryName_end (base : CString) (some_ : ext ≠ []) :
    entryName (dotted base ext) (base.length + 1 + ext.length) = 0 := by
  unfold entryName dotted
  rw [if_neg some_]
  split
  · rw [List.getD_eq_getElem?_getD, List.getElem?_eq_none (by simp; omega)]
    rfl
  · rfl

theorem isStem (plain : PlainName base ext) : Stem (entryName (dotted base ext)) base.length where
  le := plain.fits.1
  going i low := by
    rw [plain.entryName_base low]
    exact (tolower_toupper (plain.base _ (List.getElem_mem low))).2.2
  stop _ := by
    rw [plain.entryName_dot]
    split
    · exact .inr rfl
    · exact .inl rfl

theorem isExtension (plain : PlainName base ext) (some_ : ext ≠ []) :
    Extension (entryName (dotted base ext)) (base.length + 1) ext.length where
  le := plain.fits.2
  going i low := by
    rw [plain.entryName_ext low]
    exact (tolower_toupper (plain.ext _ (List.getElem_mem low))).2.2.2
  stop _ := entryName_end base some_

/-- What is stored of the extension. -/
theorem stored_ext (plain : PlainName base ext) (entry : Bytes) {j : Nat} (behind : 8 ≤ j)
    (inName : j < 11) : stringToShortFn entry (entryName (dotted base ext)) j =
      if j < 8 + ext.length then toupper (entryName (dotted base ext) (base.length + 1 + (j - 8)))
      else 0x20 := by
  have isStem := plain.isStem
  have dot := plain.entryName_dot
  have baseLe := plain.fits.1
  obtain ⟨-, place⟩ := shortName_spec isStem (Nat.zero_add 8) (Nat.zero_le _) entry
  by_cases none_ : ext = []
  · subst none_
    rw [if_pos rfl] at dot
    rw [List.length_nil, if_neg (by omega)]
    by_cases full : base.length = 8
    · rw [full] at dot
      rw [if_pos full, strchr_zero dot] at place
      rw [stringToShortFn_none entry place, if_pos ⟨behind, inName⟩]
    · rw [dot, if_neg full, if_neg (by decide)] at place
      have isExt : Extension (entryName (dotted base [])) base.length 0 :=
        ⟨Nat.zero_le 3, fun i never => absurd never (Nat.not_lt_zero i), fun _ => dot⟩
      rw [stringToShortFn_some entry isExt place, if_neg (by omega), if_neg (by omega),
        if_pos inName]
  · rw [if_neg none_] at dot
    have short := plain.short.resolve_right none_
    rw [if_neg (by omega), dot, if_pos rfl] at place
    rw [stringToShortFn_some entry (plain.isExtension none_) place, if_neg (by omega)]
    split <;> rfl

/-- The entry of a name of small letters has the capital ones. -/
theorem stored (plain : PlainName base ext) (entry : Bytes) :
    (∀ i (low : i < base.length),
      stringToShortFn entry (entryName (dotted base ext)) i = toupper base[i]) ∧
    (∀ i (low : i < ext.length),
      stringToShortFn entry (entryName (dotted base ext)) (8 + i) = toupper ext[i]) ∧
    ShortName IsAlnum (stringToShortFn entry (entryName (dotted base ext))) base.length ext.length := by
  obtain ⟨baseLe, extLe⟩ := plain.fits
  have chars (j : Nat) (inBase : j < 8) :
      stringToShortFn entry (entryName (dotted base ext)) j =
        if j < base.length then toupper (entryName (dotted base ext) j) else 0x20 := by
    rw [stringToShortFn_outside entry _ (.inl inBase),
      (shortName_spec plain.isStem (Nat.zero_add 8) (Nat.zero_le _) entry).1 j,
      if_neg (Nat.not_lt_zero j)]
    split <;> rfl
  have first (i : Nat) (low : i < base.length) :
      stringToShortFn entry (entryName (dotted base ext)) i = toupper base[i] := by
    rw [chars i (by omega), if_pos low, plain.entryName_base low]
  have second (i : Nat) (low : i < ext.length) :
      stringToShortFn entry (entryName (dotted base ext)) (8 + i) = toupper ext[i] := by
    rw [plain.stored_ext entry (by omega) (by omega), if_pos (by omega), Nat.add_sub_cancel_left,
      plain.entryName_ext low]
  refine ⟨first, second, List.length_pos_iff.2 plain.some_, baseLe, extLe, fun i low => ?_,
    fun i behind inBase => ?_, fun i low => ?_, fun i behind inExt => ?_⟩
  · rw [first i low]
    exact .inl (tolower_toupper (plain.base _ (List.getElem_mem low))).2.1
  · rw [chars i inBase, if_neg (by omega)]
  · rw [second i low]
    exact .inl (tolower_toupper (plain.ext _ (List.getElem_mem low))).2.1
  · rw [plain.stored_ext entry (by omega) (by omega), if_neg (by omega)]

/-- **A name of small letters is listed as it was given.** -/
theorem listed (plain : PlainName base ext) (entry buf : Bytes) :
    cString (shortFnToString (stringToShortFn entry (entryName (dotted base ext))) buf) =
      dotted base ext := by
  obtain ⟨first, second, short⟩ := plain.stored entry
  have upper (i : Nat) (low : i < base.length) :
      IsUpper (stringToShortFn entry (entryName (dotted base ext)) i) := by
    rw [first i low]
    exact (tolower_toupper (plain.base _ (List.getElem_mem low))).2.1
  have upperExt (i : Nat) (low : i < ext.length) :
      IsUpper (stringToShortFn entry (entryName (dotted base ext)) (8 + i)) := by
    rw [second i low]
    exact (tolower_toupper (plain.ext _ (List.getElem_mem low))).2.1
  obtain ⟨stem, found, decoded⟩ := decodes (stringToShortFn entry (entryName (dotted base ext))) buf
  obtain rfl : stem = base.length := decoded.stem_eq short upper
  have extLe := plain.fits.2
  obtain rfl : found = ext.length := by
    refine le_antisymm (decoded.ext_le short) ?_
    by_contra less
    exact decoded.extBehind found le_rfl (by omega) (upperExt found (by omega))
  have baseChar (i : Nat) (low : i < base.length) :
      shortFnToString (stringToShortFn entry (entryName (dotted base ext))) buf i = base[i] := by
    rw [decoded.chars i low, first i low]
    exact (tolower_toupper (plain.base _ (List.getElem_mem low))).1
  have extChar (i : Nat) (low : i < ext.length) :
      shortFnToString (stringToShortFn entry (entryName (dotted base ext))) buf
        (base.length + 1 + i) = ext[i] := by
    rw [decoded.extChars i low, second i low]
    exact (tolower_toupper (plain.ext _ (List.getElem_mem low))).1
  rw [decoded.cString]
  generalize shortFnToString (stringToShortFn entry (entryName (dotted base ext))) buf = b at *
  unfold dotted Decoded.length
  by_cases none_ : ext = []
  · subst none_
    rw [List.length_nil, if_pos rfl, if_pos rfl, List.append_nil]
    refine List.ext_getElem (by simp) fun i inList inBase => ?_
    rw [List.getElem_map, List.getElem_range]
    exact baseChar i inBase
  · have some_ : ext.length ≠ 0 := mt List.length_eq_zero_iff.1 none_
    rw [if_neg some_, if_neg none_]
    refine List.ext_getElem (by simp; omega) fun i inList inName => ?_
    rw [List.getElem_map, List.getElem_range]
    rw [List.length_map, List.length_range] at inList
    rcases Nat.lt_trichotomy i base.length with less | rfl | more
    · rw [List.getElem_append_left less]
      exact baseChar i less
    · rw [List.getElem_append_right le_rfl, decoded.dot, if_neg some_]
      simp
    · obtain ⟨j, rfl⟩ := Nat.exists_eq_add_of_lt more
      rw [List.getElem_append_right (by omega)]
      have place : base.length + j + 1 - base.length = j + 1 := by omega
      simp only [place, List.getElem_cons_succ]
      have here := extChar j (by omega)
      rwa [Nat.add_right_comm] at here

end PlainName

end Plain

end TestOs.Fat32
