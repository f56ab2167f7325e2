/-
# Console.Paths -- the current path, and the paths that commands make of it

`cd` puts its argument behind the current path, or cuts the last part off for
`..`, and `set_eval_path` keeps the result with a slash at its end if
`disk_dir_open` takes it.  All of this happens in buffers of 128 bytes and no
length is checked: `paths_fit_iff` says which paths stay inside, and
`cd_up_undoes_cd` that `..` finds back.
-/
import TestOs.Console.Tokenizer
import TestOs.Fat32.Directories

namespace TestOs.Console

open TestOs.Library

set_option autoImplicit false

/-- `KERNEL_DISK_MAX_PATH`. -/
def diskMaxPath : Nat := 128

/-- `KERNEL_DISK_ID_START`, "a:". -/
def diskIdStart : Nat := 0x3a61

/-- `KERNEL_DISK_ID_END`, "z:". -/
def diskIdEnd : Nat := 0x3a7a

/-- `KERNEL_DISK_ID_LEN`. -/
def diskIdLen : Nat := 2

def slash : Byte := chr '/'

def colon : Byte := chr ':'

/-- `DISK_PATH_ID`. -/
def diskPathId (path : Int → Byte) : Nat := (path 0).toNat + 2 ^ 8 * (path 1).toNat

/-- A buffer, with what lies around it. -/
abbrev Buffer := Traced Int Byte

/-- The string in a buffer. -/
def stringOf (buffer : Int → Byte) : List Byte := textAt buffer (2 ^ 32) 0

/-- `strcpy` to `&dst[at_]`. -/
def strcpy (dst : Buffer) (at_ : Nat) : List Byte → Buffer
  | [] => dst.put at_ 0
  | c :: text => strcpy (dst.put at_ c) (at_ + 1) text

/-- `strncpy` to `&dst[at_]`. -/
def strncpy (dst : Buffer) (at_ : Nat) : List Byte → Nat → Buffer
  | _, 0 => dst
  | [], n + 1 => strncpy (dst.put at_ 0) (at_ + 1) [] n
  | c :: text, n + 1 => strncpy (dst.put at_ c) (at_ + 1) text n

/-- `memset` with 0. -/
def memsetZero (dst : Buffer) : Nat → Buffer
  | 0 => dst
  | n + 1 => (memsetZero dst n).put n 0

/-! ## The current path

`opens` is what `disk_dir_open` answers for a path. -/

/-- The loop of `check_root_path`, over `n` disks from `i` on. -/
def rootLoop (opens : List Byte → Bool) : Nat → Nat → Buffer → Bool × Buffer
  | 0, _, current => (false, current)
  | n + 1, i, current =>
      let current := ((current.put 0 (BitVec.ofNat 8 i)).put 1 (BitVec.ofNat 8 (i / 2 ^ 8))).put diskIdLen slash
      if opens (stringOf current.at_) then (true, current) else rootLoop opens n (i + 1) current

/-- `check_root_path`: whether it returns 0, and `current_path`. -/
def checkRootPath (opens : List Byte → Bool) (startDisk endDisk : Nat) (current : Buffer) : Bool × Buffer :=
  let backup := stringOf current.at_
  match rootLoop opens (endDisk + 1 - startDisk) startDisk (memsetZero current diskMaxPath) with
  | (true, current) => (true, current)
  | (false, current) => (false, strcpy current 0 backup)

/-- `set_eval_path`. -/
def setEvalPath (opens : List Byte → Bool) (path : Int → Byte) (current : Buffer) : Bool × Buffer :=
  let target := diskPathId path
  if target ≠ diskPathId current.at_ ∧ diskIdStart ≤ target ∧ target ≤ diskIdEnd then
    checkRootPath opens target target current
  else if opens (stringOf path) then
    let length := (stringOf path).length
    let current := strcpy current 0 (stringOf path)
    if length > 0 ∧ current.at_ (length - 1) ≠ slash then
      (true, (current.put length slash).put (length + 1) 0)
    else (true, current)
  else (false, current)

/-! ## Commands -/

/-- `while (i >= 0 && path[i] != '/') --i;`, from `i = n - 1` on. -/
def scanBack (path : Int → Byte) : Nat → Int
  | 0 => -1
  | n + 1 => if path n ≠ slash then scanBack path n else n

/-- The index behind the slash before the last part. -/
def parentEnd (path : Int → Byte) : Int :=
  let i := scanBack path ((stringOf path).length + 1)
  let i := i - 1
  (if i ≥ 0 then scanBack path (i.toNat + 1) else i) + 1

/-- How `cd` ends. -/
inductive Change
  | same
  | invalidId
  | entered
  | failed
deriving DecidableEq

/-- `set_path` in `cd`. -/
def setPath (opens : List Byte → Bool) (path current : Buffer) : Change × Buffer × Buffer :=
  match setEvalPath opens path.at_ current with
  | (true, current) => (.entered, path, current)
  | (false, current) => (.failed, path, current)

/-- `cd` with an argument: how it ends, its `path`, and `current_path`. -/
def cd (opens : List Byte → Bool) (argument : Int → Byte) (path : Int → Byte) (current : Buffer) :
    Change × Buffer × Buffer :=
  let path := strcpy ⟨path, []⟩ 0 (stringOf current.at_)
  if argument 1 = colon then
    if argument 2 = 0 then
      if diskPathId argument ≠ diskPathId path.at_ then
        setPath opens ((strncpy path 0 (stringOf argument) diskIdLen).put diskIdLen 0) current
      else (.same, path, current)
    else (.invalidId, path, current)
  else if strcmp (stringOf argument) (bytes "..") = 0 then
    setPath opens (path.put (parentEnd path.at_) 0) current
  else setPath opens (strcpy path (stringOf path.at_).length (stringOf argument)) current

/-- `path` of `pushf`. -/
def pushfPath (current argument path : Int → Byte) : Buffer :=
  let path := strcpy ⟨path, []⟩ 0 (stringOf current)
  strncpy path (stringOf path.at_).length (stringOf argument) diskMaxPath

/-- `buffer` of `popf`. -/
def popfPath (current argument buffer : Int → Byte) : Buffer :=
  strcpy (strcpy ⟨buffer, []⟩ 0 (stringOf current)) (stringOf current).length (stringOf argument)

/-- `while (*path && *path != '/') ++path;` in `disk_file_open`. -/
def withoutDisk (path : List Byte) : List Byte := path.dropWhile (· ≠ slash)

/-- `strrchr`, from index `i` on; `ret` is the last place so far. -/
def strrchr (c : Byte) : List Byte → Nat → Option Nat → Option Nat
  | [], _, ret => ret
  | d :: text, i, ret => strrchr c text (i + 1) (if d = c then some i else ret)

/-- `memcpy` of the first bytes of a string. -/
def memcpyText (dst : Buffer) (at_ : Nat) : List Byte → Buffer
  | [] => dst
  | c :: text => memcpyText (dst.put at_ c) (at_ + 1) text

/-- `dirname` of `fat32_file_open`, if it gets that far. -/
def fileDirname (path : List Byte) (dirname : Int → Byte) : Option Buffer :=
  (strrchr slash path 0 none).map fun p =>
    let len := p + 1
    (memcpyText ⟨dirname, []⟩ 0 (path.take len)).put len 0

/-! ## Strings in buffers -/

/-- `text` is the string in a buffer. -/
structure TextIn (buffer : Int → Byte) (text : List Byte) : Prop where
  lies : LiesAt buffer 0 text
  noZero : ∀ c ∈ text, c ≠ 0
  short : text.length < 2 ^ 32

section Strings

variable {dst : Buffer} {a n : Nat} {text cur : List Byte} {k : Int} {buffer buffer' : Int → Byte} {c : Byte}

theorem TextIn.stringOf_eq (holds : TextIn buffer text) : stringOf buffer = text := by
  have finished : Finished buffer (text.length + 1) 0 text := by
    refine ⟨holds.noZero, holds.lies.chars, by omega, holds.lies.ends⟩
  exact finished.textAt holds.short

theorem strcpy_elsewhere (outside : k < a ∨ a + text.length < k) : (strcpy dst a text).at_ k = dst.at_ k := by
  induction text generalizing dst a with
  | nil =>
    rw [List.length_nil] at outside
    exact Traced.put_at_of_ne _ _ _ _ (by omega)
  | cons c text ih =>
    rw [List.length_cons] at outside
    rw [strcpy, ih (by omega)]
    exact Traced.put_at_of_ne _ _ _ _ (by omega)

theorem strcpy_lies (dst : Buffer) (a : Nat) (text : List Byte) : LiesAt (strcpy dst a text).at_ a text := by
  induction text generalizing dst a with
  | nil => exact ⟨fun k below => absurd below (Nat.not_lt_zero k), Traced.put_at_self _ _ _⟩
  | cons c text ih =>
    have rest := ih (dst.put a c) (a + 1)
    refine ⟨fun k below => ?_, ?_⟩
    · cases k with
      | zero =>
        rw [strcpy, strcpy_elsewhere (by omega)]
        exact Traced.put_at_self _ _ _
      | succ k =>
        have there := rest.chars k (by rw [List.length_cons] at below; omega)
        rwa [Nat.add_assoc, Nat.add_comm 1 k] at there
    · have there := rest.ends
      rwa [Nat.add_assoc, Nat.add_comm 1] at there

theorem mem_strcpy : k ∈ (strcpy dst a text).written ↔ k ∈ dst.written ∨ (a ≤ k ∧ k ≤ a + text.length) := by
  induction text generalizing dst a with
  | nil =>
    rw [strcpy, Traced.put_written, List.mem_cons, List.length_nil]
    grind
  | cons c text ih =>
    rw [strcpy, ih, Traced.put_written, List.mem_cons, List.length_cons]
    grind

theorem mem_strncpy : k ∈ (strncpy dst a text n).written ↔ k ∈ dst.written ∨ (a ≤ k ∧ k < a + n) := by
  induction n generalizing dst a text with
  | zero =>
    rw [strncpy]
    grind
  | succ n ih =>
    cases text with
    | nil =>
      rw [strncpy, ih, Traced.put_written, List.mem_cons]
      grind
    | cons c text =>
      rw [strncpy, ih, Traced.put_written, List.mem_cons]
      grind

theorem mem_memcpyText : k ∈ (memcpyText dst a text).written ↔ k ∈ dst.written ∨ (a ≤ k ∧ k < a + text.length) := by
  induction text generalizing dst a with
  | nil =>
    rw [memcpyText, List.length_nil]
    grind
  | cons c text ih =>
    rw [memcpyText, ih, Traced.put_written, List.mem_cons, List.length_cons]
    grind

theorem LiesAt.append {idx : Nat} (first : ∀ k (below : k < cur.length), buffer (idx + k : Nat) = cur[k])
    (second : LiesAt buffer (idx + cur.length) text) : LiesAt buffer idx (cur ++ text) := by
  refine ⟨fun k below => ?_, ?_⟩
  · by_cases early : k < cur.length
    · rw [List.getElem_append_left early]
      exact first k early
    · rw [List.length_append] at below
      rw [List.getElem_append_right (not_lt.1 early), ← second.chars (k - cur.length) (by omega)]
      congr 2
      omega
  · have there := second.ends
    rwa [Nat.add_assoc, ← List.length_append] at there

theorem TextIn.congr (holds : TextIn buffer text) (same : ∀ k : Int, 0 ≤ k → k ≤ text.length → buffer' k = buffer k) :
    TextIn buffer' text := by
  refine ⟨⟨fun k below => ?_, ?_⟩, holds.noZero, holds.short⟩
  · exact (same _ (by omega) (by omega)).trans (holds.lies.chars k below)
  · exact (same _ (by omega) (by omega)).trans holds.lies.ends

theorem TextIn.copied (holds : TextIn buffer text) (dst : Buffer) : TextIn (strcpy dst 0 text).at_ text :=
  ⟨strcpy_lies dst 0 text, holds.noZero, holds.short⟩

theorem TextIn.last (holds : TextIn buffer text) (some_char : text ≠ []) :
    some (buffer (text.length - 1)) = text.getLast? := by
  have positive := List.length_pos_iff.2 some_char
  have there := holds.lies.chars (text.length - 1) (by omega)
  rw [Nat.zero_add, Nat.cast_sub positive] at there
  rw [List.getLast?_eq_getElem?, List.getElem?_eq_getElem (by omega), ← there]
  rfl

/-- One string behind another. -/
theorem TextIn.appended (holds : TextIn dst.at_ cur) (noZero : ∀ c ∈ text, c ≠ 0)
    (short : cur.length + text.length < 2 ^ 32) : TextIn (strcpy dst cur.length text).at_ (cur ++ text) := by
  refine ⟨LiesAt.append (fun k below => ?_) ?_, fun c mem => ?_, by rwa [List.length_append]⟩
  · rw [strcpy_elsewhere (by omega)]
    exact holds.lies.chars k below
  · rw [Nat.zero_add]
    exact strcpy_lies dst cur.length text
  · rcases List.mem_append.1 mem with inside | inside
    · exact holds.noZero c inside
    · exact noZero c inside

/-- A terminator inside a string. -/
theorem TextIn.cut (holds : TextIn dst.at_ text) (inside : n ≤ text.length) :
    TextIn (dst.put n 0).at_ (text.take n) := by
  have length : (text.take n).length = n := by rw [List.length_take, Nat.min_eq_left inside]
  have short := holds.short
  refine ⟨⟨fun k below => ?_, ?_⟩, fun c mem => holds.noZero c (List.mem_of_mem_take mem), by omega⟩
  · rw [length] at below
    rw [Traced.put_at_of_ne _ _ _ _ (by omega), List.getElem_take]
    exact holds.lies.chars k (by omega)
  · rw [length, Nat.zero_add]
    exact Traced.put_at_self _ _ _

end Strings

/-! ## What `set_eval_path` keeps -/

/-- All stores are in the buffer. -/
def Inside (size : Nat) (buffer : Buffer) : Prop := buffer.Within fun k => 0 ≤ k ∧ k < size

/-- A terminator is in the buffer. -/
def Ended (buffer : Buffer) : Prop := ∃ k : Nat, k < diskMaxPath ∧ buffer.at_ k = 0

/-- The path that is kept of one that opens. -/
def stored (text : List Byte) : List Byte :=
  if text = [] ∨ text.getLast? = some slash then text else text ++ [slash]

/-- A path that begins with the name of a disk. -/
def DriveId (text : List Byte) : Prop :=
  ∃ drive rest, text = drive :: colon :: rest ∧ chr 'a' ≤ drive ∧ drive ≤ chr 'z'

/-- `current_path` as `set_eval_path` leaves it: with the name of a disk, and a slash at its end. -/
structure Accepted (current : Int → Byte) (cur : List Byte) : Prop where
  text : TextIn current cur
  room : cur.length < diskMaxPath
  drive : DriveId cur
  slash : cur.getLast? = some slash

/-- `set_eval_path` changes to the root of another disk. -/
def ChangesDisk (path current : Int → Byte) : Prop :=
  diskPathId path ≠ diskPathId current ∧ diskIdStart ≤ diskPathId path ∧ diskPathId path ≤ diskIdEnd

section Setting

variable {opens : List Byte → Bool} {path : Int → Byte} {current : Buffer} {text cur : List Byte} {k : Int}

theorem stored_length_le (text : List Byte) : (stored text).length ≤ text.length + 1 := by
  unfold stored
  split
  · omega
  · rw [List.length_append, List.length_singleton]

theorem le_stored_length (text : List Byte) : text.length ≤ (stored text).length := by
  unfold stored
  split
  · exact le_rfl
  · rw [List.length_append]
    omega

theorem setEvalPath_rejected (same : ¬ ChangesDisk path current.at_) (holds : TextIn path text)
    (rejects : opens text = false) : setEvalPath opens path current = (false, current) := by
  unfold ChangesDisk at same
  unfold setEvalPath
  simp only []
  rw [if_neg same, holds.stringOf_eq, rejects]
  rfl

/-- The path opens, and is kept. -/
theorem setEvalPath_opened (same : ¬ ChangesDisk path current.at_) (holds : TextIn path text)
    (accepts : opens text = true) (short : text.length + 1 < 2 ^ 32) :
    ∃ out, setEvalPath opens path current = (true, out) ∧ TextIn out.at_ (stored text) ∧
      ∀ k, k ∈ out.written ↔ k ∈ current.written ∨ 0 ≤ k ∧ k ≤ (stored text).length := by
  have copied := holds.copied current
  unfold ChangesDisk at same
  unfold setEvalPath
  simp only []
  rw [if_neg same, holds.stringOf_eq, accepts, if_pos rfl]
  by_cases ends : text = [] ∨ text.getLast? = some slash
  · have noSlash : ¬ (text.length > 0 ∧ (strcpy current 0 text).at_ (text.length - 1) ≠ slash) := by
      rintro ⟨some_char, other⟩
      rcases ends with empty | ends
      · exact some_char.ne' (congrArg List.length empty)
      · rw [← copied.last (List.ne_nil_of_length_pos some_char)] at ends
        exact other (Option.some.inj ends)
    rw [if_neg noSlash, stored, if_pos ends]
    refine ⟨_, rfl, copied, fun k => ?_⟩
    rw [mem_strcpy]
    simp
  · have addSlash : text.length > 0 ∧ (strcpy current 0 text).at_ (text.length - 1) ≠ slash := by
      obtain ⟨some_char, other⟩ := not_or.1 ends
      refine ⟨List.length_pos_iff.2 some_char, fun isSlash => other ?_⟩
      rw [← copied.last some_char, isSlash]
    rw [if_pos addSlash, stored, if_neg ends]
    refine ⟨_, rfl, ?_, fun k => ?_⟩
    · have both : TextIn (strcpy (strcpy current 0 text) text.length [slash]).at_ (text ++ [slash]) :=
        copied.appended (by decide) short
      exact both
    · rw [Traced.put_written, Traced.put_written, List.mem_cons, List.mem_cons, mem_strcpy, List.length_append,
        List.length_singleton]
      grind

theorem memsetZero_at {n : Nat} (low : 0 ≤ k) (high : k < n) : (memsetZero current n).at_ k = 0 := by
  induction n with
  | zero => omega
  | succ n ih =>
    rw [memsetZero]
    by_cases here : k = n
    · subst here
      exact Traced.put_at_self _ _ _
    · rw [Traced.put_at_of_ne _ _ _ _ here]
      exact ih (by omega)

theorem memsetZero_inside {n : Nat} (inside : Inside diskMaxPath current) (fits : n ≤ diskMaxPath) :
    Inside diskMaxPath (memsetZero current n) := by
  induction n with
  | zero => exact inside
  | succ n ih =>
    rw [memsetZero, Inside, Traced.within_put]
    exact ⟨by omega, ih (by omega)⟩

theorem rootLoop_inside (opens : List Byte → Bool) (n i : Nat) (inside : Inside diskMaxPath current) :
    Inside diskMaxPath (rootLoop opens n i current).2 ∧
      ∀ k : Int, 3 ≤ k → (rootLoop opens n i current).2.at_ k = current.at_ k := by
  induction n generalizing i current with
  | zero => exact ⟨inside, fun _ _ => rfl⟩
  | succ n ih =>
    have next : Inside diskMaxPath
        (((current.put 0 (BitVec.ofNat 8 i)).put 1 (BitVec.ofNat 8 (i / 2 ^ 8))).put diskIdLen slash) := by
      rw [Inside, Traced.within_put, Traced.within_put, Traced.within_put]
      exact ⟨by decide, by decide, by decide, inside⟩
    have far (k : Int) (behind : 3 ≤ k) :
        (((current.put 0 (BitVec.ofNat 8 i)).put 1 (BitVec.ofNat 8 (i / 2 ^ 8))).put diskIdLen slash).at_ k =
          current.at_ k := by
      rw [Traced.put_at_of_ne _ _ _ _ (by rw [diskIdLen]; omega), Traced.put_at_of_ne _ _ _ _ (by omega),
        Traced.put_at_of_ne _ _ _ _ (by omega)]
    rw [rootLoop]
    split
    · exact ⟨next, far⟩
    · obtain ⟨later, same⟩ := ih (i + 1) next
      exact ⟨later, fun k behind => (same k behind).trans (far k behind)⟩

/-- Changing to the root of a disk stays in the buffer. -/
theorem checkRootPath_fits (startDisk endDisk : Nat) (holds : TextIn current.at_ cur)
    (room : cur.length < diskMaxPath) (inside : Inside diskMaxPath current) :
    Inside diskMaxPath (checkRootPath opens startDisk endDisk current).2 ∧
      Ended (checkRootPath opens startDisk endDisk current).2 := by
  obtain ⟨loopInside, far⟩ := rootLoop_inside opens (endDisk + 1 - startDisk) startDisk
    (memsetZero_inside inside le_rfl)
  unfold checkRootPath
  simp only [holds.stringOf_eq]
  generalize rootLoop opens (endDisk + 1 - startDisk) startDisk (memsetZero current diskMaxPath) = result at *
  obtain ⟨found, current'⟩ := result
  cases found with
  | true =>
    refine ⟨loopInside, 3, by decide, ?_⟩
    exact (far 3 le_rfl).trans (memsetZero_at (by decide) (by decide))
  | false =>
    refine ⟨fun k stored => ?_, cur.length, room, ?_⟩
    · rcases mem_strcpy.1 stored with before | new
      · exact loopInside k before
      · omega
    · have ends := (strcpy_lies current' 0 cur).ends
      rwa [Nat.zero_add] at ends

/-- **`set_eval_path` stays in its buffer exactly when it changes the disk, or the path does not open,
or what is kept of it is shorter than the buffer.** -/
theorem setEvalPath_fits_iff (holds : TextIn path text) (short : text.length + 1 < 2 ^ 32)
    (now : TextIn current.at_ cur) (room : cur.length < diskMaxPath) (inside : Inside diskMaxPath current) :
    Inside diskMaxPath (setEvalPath opens path current).2 ∧ Ended (setEvalPath opens path current).2 ↔
      (¬ ChangesDisk path current.at_ → opens text = true → (stored text).length < diskMaxPath) := by
  by_cases changes : ChangesDisk path current.at_
  · refine iff_of_true ?_ fun same => absurd changes same
    have sets : setEvalPath opens path current =
        checkRootPath opens (diskPathId path) (diskPathId path) current := if_pos changes
    rw [sets]
    exact checkRootPath_fits _ _ now room inside
  · cases answer : opens text with
    | false =>
      rw [setEvalPath_rejected changes holds answer]
      refine iff_of_true ⟨inside, cur.length, room, ?_⟩ fun _ never => nomatch never
      have ends := now.lies.ends
      rwa [Nat.zero_add] at ends
    | true =>
      obtain ⟨out, sets, kept, written⟩ := setEvalPath_opened changes holds answer short
      rw [sets]
      constructor
      · rintro ⟨within, -⟩ - -
        have last := within (stored text).length ((written _).2 (.inr ⟨by omega, le_rfl⟩))
        omega
      · intro fits
        refine ⟨fun k mem => ?_, (stored text).length, fits changes rfl, ?_⟩
        · rcases (written k).1 mem with before | new
          · exact inside k before
          · have := fits changes rfl
            omega
        · have ends := kept.lies.ends
          rwa [Nat.zero_add] at ends

end Setting

/-! ## The parent of a path -/

section Parent

variable {path : Int → Byte} {cur base part : List Byte} {n j : Nat}

theorem scanBack_slash (below : j < n) (here : path j = slash)
    (between : ∀ k : Nat, j < k → k < n → path k ≠ slash) : scanBack path n = j := by
  induction n with
  | zero => omega
  | succ n ih =>
    rw [scanBack]
    by_cases last : j = n
    · subst last
      rw [if_neg (not_not.2 here)]
    · rw [if_pos (between n (by omega) (by omega))]
      exact ih (by omega) fun k above below => between k above (by omega)

theorem scanBack_none (none_ : ∀ k : Nat, k < n → path k ≠ slash) : scanBack path n = -1 := by
  induction n with
  | zero => rfl
  | succ n ih =>
    rw [scanBack, if_pos (none_ n (by omega))]
    exact ih fun k below => none_ k (by omega)

theorem scanBack_bounds (path : Int → Byte) (n : Nat) : -1 ≤ scanBack path n ∧ scanBack path n < n := by
  induction n with
  | zero => exact ⟨le_rfl, Int.negSucc_lt_zero 0⟩
  | succ n ih =>
    rw [scanBack]
    split
    · omega
    · omega

/-- The first scan stops at the slash at the end. -/
theorem parentEnd_eq (holds : TextIn path cur) (ends : cur.getLast? = some slash) :
    parentEnd path = scanBack path (cur.length - 1) + 1 := by
  have some_char : cur ≠ [] := by
    rintro rfl
    cases ends
  have positive := List.length_pos_iff.2 some_char
  have lastSlash : path (cur.length - 1 : Nat) = slash := by
    have last := holds.last some_char
    rw [ends] at last
    rw [Nat.cast_sub positive]
    exact Option.some.inj last
  have first : scanBack path (cur.length + 1) = (cur.length - 1 : Nat) := by
    refine scanBack_slash (by omega) lastSlash fun k above below => ?_
    have terminator := holds.lies.ends
    rw [Nat.zero_add] at terminator
    obtain rfl : k = cur.length := by omega
    rw [terminator]
    decide
  unfold parentEnd
  simp only [holds.stringOf_eq, first]
  by_cases one : cur.length = 1
  · rw [one]
    rfl
  · rw [if_pos (by omega), show ((cur.length - 1 : Nat) - 1 : Int).toNat + 1 = cur.length - 1 by omega]

/-- The parent of a path with a last part. -/
theorem parentEnd_part (holds : TextIn path (base ++ part ++ [slash])) (noSlash : slash ∉ part)
    (ends : base.getLast? = some slash) : parentEnd path = base.length := by
  have baseEnds : base ≠ [] := by
    rintro rfl
    cases ends
  have positive := List.length_pos_iff.2 baseEnds
  rw [parentEnd_eq holds (by simp)]
  have char (k : Nat) (below : k < (base ++ part).length) : path k = (base ++ part)[k] := by
    have there := holds.lies.char below
    rwa [Nat.zero_add] at there
  have back : scanBack path ((base ++ part ++ [slash]).length - 1) = (base.length - 1 : Nat) := by
    rw [List.length_append, List.length_singleton, Nat.add_sub_cancel]
    have length : (base ++ part).length = base.length + part.length := List.length_append
    refine scanBack_slash (by omega) ?_ fun k above below => ?_
    · rw [char _ (by omega), List.getElem_append_left (by omega)]
      rw [List.getLast?_eq_getElem?, List.getElem?_eq_getElem (by omega)] at ends
      exact Option.some.inj ends
    · rw [char _ below, List.getElem_append_right (by omega)]
      intro isSlash
      exact noSlash (isSlash ▸ List.getElem_mem _)
  rw [back]
  omega

end Parent

/-! ## cd -/

section Change

variable {opens : List Byte → Bool} {argument path buffer : Int → Byte} {current : Buffer}
  {text cur arg name : List Byte}

/-- The name of a path's disk. -/
theorem diskPathId_eq {c d : Byte} (holds : TextIn buffer (c :: d :: text)) :
    diskPathId buffer = c.toNat + 2 ^ 8 * d.toNat := by
  have first : buffer 0 = c := holds.lies.chars 0 (Nat.succ_pos _)
  have second : buffer 1 = d := holds.lies.chars 1 (Nat.succ_lt_succ (Nat.succ_pos _))
  rw [diskPathId, first, second]

/-- Paths that begin alike are on one disk. -/
theorem sameDisk {rest : List Byte} (drive : DriveId cur) (now : TextIn buffer (cur ++ rest))
    (before : TextIn path (cur ++ text)) : ¬ ChangesDisk path buffer := by
  obtain ⟨d, behind, rfl, -, -⟩ := drive
  rintro ⟨differs, -, -⟩
  exact differs ((diskPathId_eq before).trans (diskPathId_eq now).symm)

theorem setPath_opened {p : Buffer} (same : ¬ ChangesDisk p.at_ current.at_) (holds : TextIn p.at_ text)
    (accepts : opens text = true) (short : text.length + 1 < 2 ^ 32) :
    ∃ out, setPath opens p current = (.entered, p, out) ∧ TextIn out.at_ (stored text) := by
  obtain ⟨out, sets, kept, -⟩ := setEvalPath_opened same holds accepts short
  refine ⟨out, ?_, kept⟩
  rw [setPath, sets]

theorem setPath_rejected {p : Buffer} (same : ¬ ChangesDisk p.at_ current.at_) (holds : TextIn p.at_ text)
    (rejects : opens text = false) : setPath opens p current = (.failed, p, current) := by
  rw [setPath, setEvalPath_rejected same holds rejects]

theorem setPath_path (p : Buffer) : (setPath opens p current).2.1 = p := by
  unfold setPath
  rcases setEvalPath opens p.at_ current with ⟨_ | _, out⟩ <;> rfl

/-- `cd` to a part of the current directory. -/
theorem cd_part (path : Int → Byte) (current : Buffer) (now : TextIn current.at_ cur) (argText : TextIn argument arg)
    (noColon : argument 1 ≠ colon) (notUp : arg ≠ bytes "..") :
    cd opens argument path current =
      setPath opens (strcpy (strcpy ⟨path, []⟩ 0 cur) cur.length arg) current := by
  have copied := now.copied ⟨path, []⟩
  have differs : ¬ strcmp arg (bytes "..") = 0 := by
    rwa [strcmp_eq_zero argText.noZero (by decide)]
  unfold cd
  simp only [now.stringOf_eq, argText.stringOf_eq, copied.stringOf_eq]
  rw [if_neg noColon, if_neg differs]

/-- `cd ..`. -/
theorem cd_up (path : Int → Byte) (current : Buffer) (now : TextIn current.at_ cur) (argText : TextIn argument (bytes "..")) :
    cd opens argument path current =
      setPath opens ((strcpy ⟨path, []⟩ 0 cur).put (parentEnd (strcpy ⟨path, []⟩ 0 cur).at_) 0) current := by
  have second : argument 1 = chr '.' := argText.lies.chars 1 (by decide)
  have noColon : argument 1 ≠ colon := by
    rw [second]
    decide
  unfold cd
  simp only [now.stringOf_eq, argText.stringOf_eq]
  rw [if_neg noColon, if_pos ((strcmp_eq_zero argText.noZero argText.noZero).2 rfl)]

/-- What a path of eval looks like: a disk, and parts with a slash behind each. -/
def directory (drive : Byte) (parts : List (List Byte)) : List Byte :=
  [drive, colon, slash] ++ parts.flatMap (· ++ [slash])

theorem directory_slash (drive : Byte) (parts : List (List Byte)) :
    (directory drive parts).getLast? = some slash := by
  rcases List.eq_nil_or_concat parts with rfl | ⟨parts, part, rfl⟩
  · rfl
  · rw [directory, List.concat_eq_append, List.flatMap_append, List.flatMap_singleton, ← List.append_assoc,
      ← List.append_assoc, List.getLast?_concat]

theorem stored_of_slash (ends : text.getLast? = some slash) : stored text = text := if_pos (.inr ends)

theorem stored_of_part (some_char : name ≠ []) (noSlash : slash ∉ name) :
    stored (cur ++ name) = cur ++ name ++ [slash] := by
  refine if_neg (not_or.2 ⟨?_, fun ends => ?_⟩)
  · exact fun empty => some_char (List.append_eq_nil_iff.1 empty).2
  · rw [List.getLast?_append_of_ne_nil _ some_char] at ends
    exact noSlash (List.mem_of_getLast? ends)

/-- `cd ..` behind `cd` to a part. -/
theorem cd_up_behind_cd {up path' : Int → Byte} {current : Int → Byte} (now : TextIn current cur)
    (ends : cur.getLast? = some slash) (drive : DriveId cur) (here : opens cur = true)
    (upText : TextIn up (bytes "..")) (argText : TextIn argument name) (some_char : name ≠ [])
    (noSlash : slash ∉ name) (noColon : name[1]? ≠ some colon) (notUp : name ≠ bytes "..")
    (short : cur.length + name.length + 1 < diskMaxPath)
    (enters : (cd opens argument path ⟨current, []⟩).1 = .entered) :
    (cd opens up path' ⟨(cd opens argument path ⟨current, []⟩).2.2.at_, []⟩).1 = .entered ∧
      TextIn (cd opens up path' ⟨(cd opens argument path ⟨current, []⟩).2.2.at_, []⟩).2.2.at_ cur := by
  simp only [diskMaxPath] at short
  have second : argument 1 ≠ colon := by
    by_cases long : 1 < name.length
    · have char : argument 1 = name[1] := argText.lies.chars 1 long
      rw [char]
      rw [List.getElem?_eq_getElem long] at noColon
      exact fun isColon => noColon (congrArg some isColon)
    · have positive := List.length_pos_iff.2 some_char
      have terminator := argText.lies.ends
      rw [Nat.zero_add, show name.length = 1 by omega] at terminator
      rw [show argument 1 = 0 from terminator]
      decide
  have extended : TextIn (strcpy (strcpy ⟨path, []⟩ 0 cur) cur.length name).at_ (cur ++ name) :=
    (now.copied ⟨path, []⟩).appended argText.noZero (by omega)
  have nowNil : TextIn current (cur ++ []) := by rwa [List.append_nil]
  have same : ¬ ChangesDisk (strcpy (strcpy ⟨path, []⟩ 0 cur) cur.length name).at_ (⟨current, []⟩ : Buffer).at_ :=
    sameDisk drive nowNil extended
  rw [cd_part path ⟨current, []⟩ now argText second notUp] at enters ⊢
  have accepts : opens (cur ++ name) = true := by
    by_contra rejected
    rw [setPath, setEvalPath_rejected same extended (Bool.eq_false_of_not_eq_true rejected)] at enters
    cases enters
  obtain ⟨out, sets, kept⟩ := setPath_opened same extended accepts (by rw [List.length_append]; omega)
  rw [sets]
  rw [stored_of_part some_char noSlash] at kept
  have keptLonger : TextIn out.at_ (cur ++ (name ++ [slash])) := by rwa [← List.append_assoc]
  have copied : TextIn (strcpy ⟨path', []⟩ 0 (cur ++ name ++ [slash])).at_ (cur ++ name ++ [slash]) :=
    kept.copied ⟨path', []⟩
  have back : TextIn ((strcpy ⟨path', []⟩ 0 (cur ++ name ++ [slash])).put cur.length 0).at_ cur := by
    have cut := copied.cut (n := cur.length) (by simp [List.length_append])
    rwa [show (cur ++ name ++ [slash]).take cur.length = cur by simp [List.append_assoc]] at cut
  have backNil : TextIn ((strcpy ⟨path', []⟩ 0 (cur ++ name ++ [slash])).put cur.length 0).at_ (cur ++ []) := by
    rwa [List.append_nil]
  have sameAgain : ¬ ChangesDisk ((strcpy ⟨path', []⟩ 0 (cur ++ name ++ [slash])).put cur.length 0).at_
      (⟨out.at_, []⟩ : Buffer).at_ := sameDisk drive keptLonger backNil
  obtain ⟨out', sets', kept'⟩ := setPath_opened sameAgain back here (by omega)
  rw [stored_of_slash ends] at kept'
  rw [cd_up path' ⟨out.at_, []⟩ kept upText, parentEnd_part copied noSlash ends, sets']
  exact ⟨rfl, kept'⟩

/-- **`cd ..` undoes `cd`, and at the root it changes nothing.** -/
theorem cd_up_undoes_cd (opens : List Byte → Bool) (drive : Byte) (parts : List (List Byte)) (current up : Int → Byte)
    (now : TextIn current (directory drive parts)) (upText : TextIn up (bytes ".."))
    (here : opens (directory drive parts) = true) (rejects : ∀ text, opens text = true → DriveId text) :
    (∀ (name : List Byte) (argument path path' : Int → Byte), TextIn argument name → name ≠ [] → slash ∉ name →
      name[1]? ≠ some colon → name ≠ bytes ".." →
      (directory drive parts).length + name.length + 1 < diskMaxPath →
      (cd opens argument path ⟨current, []⟩).1 = .entered →
        (cd opens up path' ⟨(cd opens argument path ⟨current, []⟩).2.2.at_, []⟩).1 = .entered ∧
          TextIn (cd opens up path' ⟨(cd opens argument path ⟨current, []⟩).2.2.at_, []⟩).2.2.at_
            (directory drive parts)) ∧
      (parts = [] → ∀ path, (cd opens up path ⟨current, []⟩).2.2 = ⟨current, []⟩) := by
  have isDrive := rejects _ here
  refine ⟨fun name argument path path' argText some_char noSlash noColon notUp short enters => ?_,
    fun root path => ?_⟩
  · exact cd_up_behind_cd now (directory_slash drive parts) isDrive here upText argText some_char noSlash noColon
      notUp short enters
  · subst root
    obtain ⟨d, rest, isRoot, low, high⟩ := isDrive
    obtain ⟨rfl, -⟩ := List.cons.inj isRoot
    have copied : TextIn (strcpy ⟨path, []⟩ 0 (directory drive [])).at_ (directory drive []) := now.copied ⟨path, []⟩
    have noSlash (k : Nat) (below : k < 2) : (strcpy ⟨path, []⟩ 0 (directory drive [])).at_ k ≠ slash := by
      have char := copied.lies.chars k (by rw [show (directory drive []).length = 3 from rfl]; omega)
      rw [Nat.zero_add] at char
      rw [char]
      interval_cases k
      · rintro (rfl : drive = slash)
        exact absurd low (by decide)
      · exact (by decide : colon ≠ slash)
    have up_ : parentEnd (strcpy ⟨path, []⟩ 0 (directory drive [])).at_ = 0 := by
      rw [parentEnd_eq copied rfl, show (directory drive []).length - 1 = 2 from rfl, scanBack_none noSlash]
      rfl
    have empty : TextIn ((strcpy ⟨path, []⟩ 0 (directory drive [])).put 0 0).at_ [] := copied.cut (n := 0) (by omega)
    have second : ((strcpy ⟨path, []⟩ 0 (directory drive [])).put 0 0).at_ 1 = colon :=
      copied.lies.chars 1 (by simp [directory])
    have noDisk : ¬ ChangesDisk ((strcpy ⟨path, []⟩ 0 (directory drive [])).put 0 0).at_
        (⟨current, []⟩ : Buffer).at_ := by
      rintro ⟨-, atLeast, -⟩
      rw [diskPathId, second, show ((strcpy ⟨path, []⟩ 0 (directory drive [])).put 0 0).at_ 0 = 0 from
        Traced.put_at_self _ _ _] at atLeast
      exact absurd atLeast (by decide)
    have rejected : opens [] = false := by
      by_contra accepts
      obtain ⟨_, _, never, -⟩ := rejects [] (Bool.eq_true_of_not_eq_false accepts)
      cases never
    rw [cd_up path ⟨current, []⟩ now upText, up_, setPath_rejected noDisk empty rejected]

/-- What is on disk a opens. -/
def opensA (text : List Byte) : Bool := decide (text.take 2 = bytes "a:")

theorem textBuffer_textIn {text : List Byte} (noZero : ∀ c ∈ text, c ≠ 0) (short : text.length < 2 ^ 32) :
    TextIn (textBuffer text) text := by
  refine ⟨⟨fun k below => ?_, ?_⟩, noZero, short⟩
  · rw [Nat.zero_add]
    exact (textBuffer_holds text).chars k below
  · rw [Nat.zero_add]
    exact (textBuffer_holds text).terminated

/-- `cd b` and `cd ..` at `a:/`. -/
theorem up_from_b :
    TextIn (cd opensA (textBuffer (bytes "..")) (fun _ => 0)
      ⟨(cd opensA (textBuffer (bytes "b")) (fun _ => 0) ⟨textBuffer (bytes "a:/"), []⟩).2.2.at_, []⟩).2.2.at_
      (bytes "a:/") := by
  have rejects (text : List Byte) (accepts : opensA text = true) : DriveId text := by
    have begins := of_decide_eq_true accepts
    match text, begins with
    | _ :: _ :: rest, begins =>
      obtain ⟨rfl, second⟩ := List.cons.inj begins
      obtain ⟨rfl, -⟩ := List.cons.inj second
      exact ⟨chr 'a', rest, rfl, by decide, by decide⟩
  have both := (cd_up_undoes_cd opensA (chr 'a') [] (textBuffer (bytes "a:/")) (textBuffer (bytes ".."))
    (textBuffer_textIn (by decide) (by decide)) (textBuffer_textIn (by decide) (by decide)) (by decide) rejects).1
    (bytes "b") (textBuffer (bytes "b")) (fun _ => 0) (fun _ => 0)
    (textBuffer_textIn (by decide) (by decide)) (by decide) (by decide) (by decide) (by decide) (by decide)
    (by decide +kernel)
  exact both.2

end Change

/-! ## Lengths -/

/-- `cd` writes in its buffers only, and leaves a string in `current_path`. -/
def StaysInside (result : Change × Buffer × Buffer) : Prop :=
  Inside diskMaxPath result.2.1 ∧ Inside diskMaxPath result.2.2 ∧ Ended result.2.2

/-- `dirname` is long enough. -/
def DirnameInside (path : List Byte) (dirname : Int → Byte) : Prop :=
  ∀ after, fileDirname path dirname = some after → Inside diskMaxPath after

/-- When `cd` fits: it changes the disk, goes up, or what it makes of the two texts is short enough,
with the slash that is put behind it. -/
def CdFits (opens : List Byte → Bool) (argument : Int → Byte) (cur arg : List Byte) : Prop :=
  argument 1 = colon ∨ arg = bytes ".." ∨
    (cur.length + arg.length < diskMaxPath ∧
      (opens (cur ++ arg) = true → (stored (cur ++ arg)).length < diskMaxPath))

section Lengths

variable {opens : List Byte → Bool} {argument current : Int → Byte} {cur arg text : List Byte}

theorem exists_textIn {buffer : Int → Byte} {n : Nat} (zero : buffer n = 0) (small : n < 2 ^ 32) :
    ∃ text, TextIn buffer text ∧ text.length ≤ n := by
  have some_zero : ∃ k : Nat, buffer k = 0 := ⟨n, zero⟩
  have first : Nat.find some_zero ≤ n := Nat.find_min' some_zero zero
  refine ⟨(List.range (Nat.find some_zero)).map fun k : Nat => buffer k, ⟨⟨fun k below => ?_, ?_⟩, fun c mem => ?_, ?_⟩, ?_⟩
  · simp
  · simpa using Nat.find_spec some_zero
  · obtain ⟨k, below, rfl⟩ := List.mem_map.1 mem
    exact Nat.find_min some_zero (List.mem_range.1 below)
  · rw [List.length_map, List.length_range]
    omega
  · rwa [List.length_map, List.length_range]

theorem setPath_stays_iff {p : Buffer} (inside : Inside diskMaxPath p) (holds : TextIn p.at_ text)
    (short : text.length + 1 < 2 ^ 32) (accepted : Accepted current cur) :
    StaysInside (setPath opens p ⟨current, []⟩) ↔
      (¬ ChangesDisk p.at_ current → opens text = true → (stored text).length < diskMaxPath) := by
  have parts : StaysInside (setPath opens p ⟨current, []⟩) ↔
      Inside diskMaxPath p ∧ Inside diskMaxPath (setEvalPath opens p.at_ ⟨current, []⟩).2 ∧
        Ended (setEvalPath opens p.at_ ⟨current, []⟩).2 := by
    unfold StaysInside setPath
    rcases setEvalPath opens p.at_ ⟨current, []⟩ with ⟨_ | _, out⟩ <;> rfl
  rw [parts, and_iff_right inside]
  exact setEvalPath_fits_iff holds short accepted.text accepted.room fun _ never => nomatch never

theorem copied_inside (path : Int → Byte) (accepted : Accepted current cur) :
    Inside diskMaxPath (strcpy ⟨path, []⟩ 0 cur) := by
  have room := accepted.room
  intro k mem
  rcases mem_strcpy.1 mem with never | inside
  · cases never
  · omega

/-- What `cd` can do: nothing, or set a path that is short anyway, or one behind the other. -/
theorem cd_cases (opens : List Byte → Bool) (path : Int → Byte) (accepted : Accepted current cur)
    (argText : TextIn argument arg) :
    (argument 1 = colon ∧ ∃ change p, Inside diskMaxPath p ∧
      cd opens argument path ⟨current, []⟩ = (change, p, ⟨current, []⟩)) ∨
    ((argument 1 = colon ∨ arg = bytes "..") ∧ ∃ p text, Inside diskMaxPath p ∧ TextIn p.at_ text ∧
      text.length + 1 < diskMaxPath ∧ cd opens argument path ⟨current, []⟩ = setPath opens p ⟨current, []⟩) ∨
    (argument 1 ≠ colon ∧ arg ≠ bytes ".." ∧ cd opens argument path ⟨current, []⟩ =
      setPath opens (strcpy (strcpy ⟨path, []⟩ 0 cur) cur.length arg) ⟨current, []⟩) := by
  have now := accepted.text
  have room := accepted.room
  have copiedInside := copied_inside path accepted
  have copied := now.copied ⟨path, []⟩
  simp only [diskMaxPath] at room
  by_cases isColon : argument 1 = colon
  · by_cases ends : argument 2 = 0 ∧ diskPathId argument ≠ diskPathId (strcpy ⟨path, []⟩ 0 cur).at_
    · -- two characters and a terminator
      refine .inr (.inl ⟨.inl isColon, ?_⟩)
      have inside : Inside diskMaxPath
          ((strncpy (strcpy ⟨path, []⟩ 0 cur) 0 (stringOf argument) diskIdLen).put diskIdLen 0) := by
        rw [Inside, Traced.within_put]
        refine ⟨by decide, fun k mem => ?_⟩
        rcases mem_strncpy.1 mem with before | new
        · exact copiedInside k before
        · simp only [diskIdLen, diskMaxPath] at new ⊢
          omega
      have terminated :
          ((strncpy (strcpy ⟨path, []⟩ 0 cur) 0 (stringOf argument) diskIdLen).put diskIdLen 0).at_ diskIdLen = 0 :=
        Traced.put_at_self _ _ _
      obtain ⟨text, holds, short⟩ := exists_textIn terminated (by decide)
      simp only [diskIdLen] at short
      refine ⟨_, text, inside, holds, by simp only [diskMaxPath]; omega, ?_⟩
      unfold cd
      simp only [now.stringOf_eq]
      rw [if_pos isColon, if_pos ends.1, if_pos ends.2]
    · refine .inl ⟨isColon, if argument 2 = 0 then .same else .invalidId, _, copiedInside, ?_⟩
      unfold cd
      simp only [now.stringOf_eq]
      rw [if_pos isColon]
      by_cases zero : argument 2 = 0
      · rw [if_pos zero, if_neg fun differs => ends ⟨zero, differs⟩, if_pos zero]
      · rw [if_neg zero, if_neg zero]
  · by_cases isUp : arg = bytes ".."
    · subst isUp
      refine .inr (.inl ⟨.inr rfl, ?_⟩)
      obtain ⟨low, high⟩ := scanBack_bounds (strcpy ⟨path, []⟩ 0 cur).at_ (cur.length - 1)
      have up_ := parentEnd_eq copied accepted.slash
      obtain ⟨n, isEnd⟩ : ∃ n : Nat, parentEnd (strcpy ⟨path, []⟩ 0 cur).at_ = n :=
        ⟨(scanBack (strcpy ⟨path, []⟩ 0 cur).at_ (cur.length - 1) + 1).toNat, by omega⟩
      have positive : 0 < cur.length := by
        obtain ⟨_, _, rfl, -, -⟩ := accepted.drive
        exact Nat.succ_pos _
      have early : n ≤ cur.length := by omega
      have inside : Inside diskMaxPath ((strcpy ⟨path, []⟩ 0 cur).put n 0) := by
        rw [Inside, Traced.within_put]
        refine ⟨?_, copiedInside⟩
        simp only [diskMaxPath]
        omega
      refine ⟨_, _, inside, copied.cut early, ?_, ?_⟩
      · rw [List.length_take, Nat.min_eq_left early]
        simp only [diskMaxPath]
        omega
      · rw [cd_up path ⟨current, []⟩ now argText, isEnd]
    · exact .inr (.inr ⟨isColon, isUp, cd_part path ⟨current, []⟩ now argText isColon isUp⟩)

/-- The two texts, one behind the other, when they are short enough. -/
theorem appended_inside (path : Int → Byte) (accepted : Accepted current cur) (argText : TextIn argument arg)
    (fits : cur.length + arg.length < diskMaxPath) :
    Inside diskMaxPath (strcpy (strcpy ⟨path, []⟩ 0 cur) cur.length arg) ∧
      TextIn (strcpy (strcpy ⟨path, []⟩ 0 cur) cur.length arg).at_ (cur ++ arg) ∧
      ¬ ChangesDisk (strcpy (strcpy ⟨path, []⟩ 0 cur) cur.length arg).at_ current := by
  have long : cur.length + arg.length < 128 := fits
  have extended := (accepted.text.copied ⟨path, []⟩).appended argText.noZero (by omega)
  have nowNil : TextIn current (cur ++ []) := by
    rw [List.append_nil]
    exact accepted.text
  refine ⟨fun k mem => ?_, extended, sameDisk accepted.drive nowNil extended⟩
  rcases mem_strcpy.1 mem with before | new
  · exact copied_inside path accepted k before
  · omega

/-- **`cd` stays inside exactly when it fits.** -/
theorem cd_fits_iff (opens : List Byte → Bool) (path : Int → Byte) (accepted : Accepted current cur)
    (argText : TextIn argument arg) :
    StaysInside (cd opens argument path ⟨current, []⟩) ↔ CdFits opens argument cur arg := by
  rcases cd_cases opens path accepted argText with
    ⟨isColon, change, p, inside, does⟩ | ⟨either, p, text, inside, holds, short, does⟩ | ⟨noColon, notUp, does⟩
  · refine iff_of_true ?_ (.inl isColon)
    have ends := accepted.text.lies.ends
    rw [Nat.zero_add] at ends
    rw [does]
    exact ⟨inside, fun _ never => (nomatch never), cur.length, accepted.room, ends⟩
  · refine iff_of_true ?_ (either.elim .inl fun isUp => .inr (.inl isUp))
    have length := stored_length_le text
    rw [does]
    have small : text.length + 1 < 128 := short
    exact (setPath_stays_iff inside holds (by omega) accepted).2 fun _ _ => by omega
  · rw [does, CdFits, or_iff_right noColon, or_iff_right notUp]
    by_cases fits : cur.length + arg.length < diskMaxPath
    · have long : cur.length + arg.length < 128 := fits
      obtain ⟨inside, extended, same⟩ := appended_inside path accepted argText fits
      rw [and_iff_right fits, setPath_stays_iff inside extended (by rw [List.length_append]; omega) accepted]
      exact ⟨fun short => short same, fun short _ => short⟩
    · refine iff_of_false (fun stays => ?_) fun both => fits both.1
      have written : ((cur.length + arg.length : Nat) : Int) ∈
          (setPath opens (strcpy (strcpy ⟨path, []⟩ 0 cur) cur.length arg) ⟨current, []⟩).2.1.written := by
        rw [setPath_path, mem_strcpy]
        omega
      have outside := (stays.1 _ written).2
      omega

/-! ## Runs -/

theorem stored_drive (drive : DriveId text) : DriveId (stored text) := by
  obtain ⟨d, rest, rfl, low, high⟩ := drive
  unfold stored
  split
  · exact ⟨d, rest, rfl, low, high⟩
  · exact ⟨d, rest ++ [slash], rfl, low, high⟩

theorem stored_slash (some_char : text ≠ []) : (stored text).getLast? = some slash := by
  unfold stored
  split
  · next ends => exact ends.resolve_left some_char
  · exact List.getLast?_concat ..

/-- The root of one disk, or the path as it was. -/
theorem checkRootPath_accepted {disk : Nat} (low : diskIdStart ≤ disk) (high : disk ≤ diskIdEnd)
    (accepted : Accepted current cur) :
    ∃ cur', Accepted (checkRootPath opens disk disk ⟨current, []⟩).2.at_ cur' := by
  have isRoot : BitVec.ofNat 8 (disk / 2 ^ 8) = colon ∧ chr 'a' ≤ BitVec.ofNat 8 disk ∧
      BitVec.ofNat 8 disk ≤ chr 'z' := by
    unfold diskIdStart at low
    unfold diskIdEnd at high
    interval_cases disk <;> decide
  obtain ⟨isColon, letter⟩ := isRoot
  have root : TextIn ((((memsetZero ⟨current, []⟩ diskMaxPath).put 0 (BitVec.ofNat 8 disk)).put 1 colon).put
      diskIdLen slash).at_ [BitVec.ofNat 8 disk, colon, slash] := by
    have ends : ((((memsetZero ⟨current, []⟩ diskMaxPath).put 0 (BitVec.ofNat 8 disk)).put 1 colon).put
        diskIdLen slash).at_ 3 = 0 := by
      rw [Traced.put_at_of_ne _ _ _ _ (by decide), Traced.put_at_of_ne _ _ _ _ (by decide),
        Traced.put_at_of_ne _ _ _ _ (by decide), memsetZero_at (by decide) (by decide)]
    refine ⟨⟨fun k below => ?_, ends⟩, fun c mem => ?_, (by decide : 3 < 2 ^ 32)⟩
    · have small : k < 3 := below
      interval_cases k <;> rfl
    · rcases List.mem_cons.1 mem with rfl | mem
      · rintro zero
        rw [zero] at letter
        exact absurd letter.1 (by decide)
      · have others : ∀ c ∈ [colon, slash], c ≠ 0 := by decide
        exact others c mem
  unfold checkRootPath
  rw [Nat.add_sub_cancel_left, rootLoop, rootLoop, accepted.text.stringOf_eq, isColon]
  generalize (((memsetZero ⟨current, []⟩ diskMaxPath).put 0 (BitVec.ofNat 8 disk)).put 1 colon).put
    diskIdLen slash = b at root ⊢
  by_cases answer : opens (stringOf b.at_) = true
  · simp only [if_pos answer]
    exact ⟨_, root, (by decide : 3 < diskMaxPath), ⟨_, _, rfl, letter⟩, rfl⟩
  · simp only [if_neg answer]
    exact ⟨cur, ⟨strcpy_lies _ 0 cur, accepted.text.noZero, accepted.text.short⟩, accepted.room, accepted.drive,
      accepted.slash⟩

/-- What `set_eval_path` leaves is a path that it accepts. -/
theorem setEvalPath_accepted {p : Int → Byte} (rejects : ∀ text, opens text = true → DriveId text)
    (holds : TextIn p text) (short : text.length + 1 < 2 ^ 32) (accepted : Accepted current cur)
    (fits : ¬ ChangesDisk p current → opens text = true → (stored text).length < diskMaxPath) :
    ∃ cur', Accepted (setEvalPath opens p ⟨current, []⟩).2.at_ cur' := by
  by_cases changes : ChangesDisk p current
  · have sets : setEvalPath opens p ⟨current, []⟩ =
        checkRootPath opens (diskPathId p) (diskPathId p) ⟨current, []⟩ := if_pos changes
    rw [sets]
    obtain ⟨-, low, high⟩ := changes
    exact checkRootPath_accepted low high accepted
  · cases answer : opens text with
    | false =>
      rw [setEvalPath_rejected changes holds answer]
      exact ⟨cur, accepted⟩
    | true =>
      obtain ⟨out, sets, kept, -⟩ := setEvalPath_opened
        (show ¬ ChangesDisk p (⟨current, []⟩ : Buffer).at_ from changes) holds answer short
      have drive := rejects text answer
      have some_char : text ≠ [] := by
        obtain ⟨_, _, rfl, -, -⟩ := drive
        exact List.cons_ne_nil _ _
      rw [sets]
      exact ⟨stored text, kept, fits changes answer, stored_drive drive, stored_slash some_char⟩

/-- `cd` keeps the current path one that is accepted, as long as it fits. -/
theorem cd_accepted (path : Int → Byte) (rejects : ∀ text, opens text = true → DriveId text)
    (accepted : Accepted current cur) (argText : TextIn argument arg) (fits : CdFits opens argument cur arg) :
    ∃ cur', Accepted (cd opens argument path ⟨current, []⟩).2.2.at_ cur' := by
  have kept (p : Buffer) (text : List Byte) (holds : TextIn p.at_ text) (short : text.length + 1 < 2 ^ 32)
      (room : ¬ ChangesDisk p.at_ current → opens text = true → (stored text).length < diskMaxPath) :
      ∃ cur', Accepted (setPath opens p ⟨current, []⟩).2.2.at_ cur' := by
    obtain ⟨cur', next⟩ := setEvalPath_accepted rejects holds short accepted room
    refine ⟨cur', ?_⟩
    unfold setPath
    rcases sets : setEvalPath opens p.at_ ⟨current, []⟩ with ⟨_ | _, out⟩ <;> exact (sets ▸ next :)
  rcases cd_cases opens path accepted argText with
    ⟨-, change, p, -, does⟩ | ⟨-, p, text, -, holds, short, does⟩ | ⟨noColon, notUp, does⟩
  · rw [does]
    exact ⟨cur, accepted⟩
  · have length := stored_length_le text
    have small : text.length + 1 < 128 := short
    rw [does]
    exact kept p text holds (by omega) fun _ _ => by omega
  · obtain ⟨total, room⟩ := (fits.resolve_left noColon).resolve_left notUp
    have long : cur.length + arg.length < 128 := total
    obtain ⟨-, extended, -⟩ := appended_inside path accepted argText total
    rw [does]
    exact kept _ _ extended (by rw [List.length_append]; omega) fun _ => room

/-- `cd` one after another, each with its argument and what is in its `path` before. -/
def cdRun (opens : List Byte → Bool) (current : Int → Byte) (steps : List ((Int → Byte) × (Int → Byte))) :
    Int → Byte :=
  steps.foldl (fun current step => (cd opens step.1 step.2 ⟨current, []⟩).2.2.at_) current

/-- All steps of a run have a string for an argument, and fit. -/
def RunFits (opens : List Byte → Bool) : (Int → Byte) → List ((Int → Byte) × (Int → Byte)) → Prop
  | _, [] => True
  | current, step :: steps =>
      (∃ arg, TextIn step.1 arg ∧ CdFits opens step.1 (stringOf current) arg) ∧
        RunFits opens (cd opens step.1 step.2 ⟨current, []⟩).2.2.at_ steps

/-- **In a run of `cd` whose steps fit, the current path is always accepted, so that it ends in its
buffer.** -/
theorem cdRun_accepted (rejects : ∀ text, opens text = true → DriveId text) (accepted : Accepted current cur)
    (steps : List ((Int → Byte) × (Int → Byte))) (fits : RunFits opens current steps) :
    ∃ cur', Accepted (cdRun opens current steps) cur' := by
  induction steps generalizing current cur with
  | nil => exact ⟨cur, accepted⟩
  | cons step steps ih =>
    obtain ⟨⟨arg, argText, now⟩, later⟩ := fits
    rw [accepted.text.stringOf_eq] at now
    obtain ⟨cur', next⟩ := cd_accepted step.2 rejects accepted argText now
    exact ih next later

/-! ## Other commands -/

theorem pushfPath_outside (path : Int → Byte) (accepted : Accepted current cur) (argument : Int → Byte) :
    ¬ Inside diskMaxPath (pushfPath current argument path) := by
  intro inside
  have copied := accepted.text.copied ⟨path, []⟩
  have positive : 0 < cur.length := by
    obtain ⟨_, _, rfl, -, -⟩ := accepted.drive
    exact Nat.succ_pos _
  have written : ((cur.length + diskMaxPath - 1 : Nat) : Int) ∈ (pushfPath current argument path).written := by
    unfold pushfPath
    simp only [accepted.text.stringOf_eq, copied.stringOf_eq, mem_strncpy]
    simp only [diskMaxPath]
    omega
  have outside := (inside _ written).2
  omega

theorem popfPath_text (buffer : Int → Byte) (accepted : Accepted current cur) (argText : TextIn argument arg)
    (short : arg.length ≤ 1000) : TextIn (popfPath current argument buffer).at_ (cur ++ arg) := by
  have room := accepted.room
  simp only [diskMaxPath] at room
  unfold popfPath
  simp only [accepted.text.stringOf_eq, argText.stringOf_eq]
  exact (accepted.text.copied ⟨buffer, []⟩).appended argText.noZero (by omega)

theorem popfPath_inside_iff (buffer : Int → Byte) (accepted : Accepted current cur) (argText : TextIn argument arg) :
    Inside 512 (popfPath current argument buffer) ↔ cur.length + arg.length < 512 := by
  have room := accepted.room
  simp only [diskMaxPath] at room
  unfold popfPath
  simp only [accepted.text.stringOf_eq, argText.stringOf_eq]
  constructor
  · intro inside
    have last := (inside (cur.length + arg.length : Nat) (mem_strcpy.2 (.inr ⟨by omega, by omega⟩))).2
    omega
  · intro short k mem
    rcases mem_strcpy.1 mem with before | new
    · rcases mem_strcpy.1 before with never | inside
      · cases never
      · omega
    · omega

/-! ## The directory of a file -/

theorem strrchr_concat (c d : Byte) (text : List Byte) (i : Nat) (ret : Option Nat) :
    strrchr c (text ++ [d]) i ret = if d = c then some (i + text.length) else strrchr c text i ret := by
  induction text generalizing i ret with
  | nil => simp [strrchr]
  | cons e text ih =>
    rw [List.cons_append, strrchr, ih, strrchr, List.length_cons, Nat.add_assoc, Nat.add_comm 1]

theorem splitPath_slash (path : List Byte) :
    Fat32.splitPath (path ++ [slash]) = some (path ++ [slash], []) := by
  have none_ : ((path ++ [slash]).reverse.takeWhile (· ≠ (0x2f : BitVec 8))).reverse = [] := by
    rw [List.reverse_append, List.reverse_singleton, List.singleton_append,
      List.takeWhile_cons_of_neg (by decide), List.reverse_nil]
  unfold Fat32.splitPath
  simp only [none_]
  rw [if_neg (by simp), List.length_nil, Nat.sub_zero, List.take_length]

theorem splitPath_other {c : Byte} (other : c ≠ slash) (path : List Byte) :
    Fat32.splitPath (path ++ [c]) = (Fat32.splitPath path).map fun split => (split.1, split.2 ++ [c]) := by
  have isOther : decide (c ≠ (0x2f : BitVec 8)) = true := decide_eq_true other
  have longer : ((path ++ [c]).reverse.takeWhile (· ≠ (0x2f : BitVec 8))).reverse =
      (path.reverse.takeWhile (· ≠ (0x2f : BitVec 8))).reverse ++ [c] := by
    rw [List.reverse_append, List.reverse_singleton, List.singleton_append,
      List.takeWhile_cons, if_pos isOther, List.reverse_cons]
  have base : (path.reverse.takeWhile (· ≠ (0x2f : BitVec 8))).reverse.length ≤ path.length := by
    rw [List.length_reverse]
    exact (List.takeWhile_sublist _).length_le.trans_eq List.length_reverse
  unfold Fat32.splitPath
  simp only [longer]
  generalize (path.reverse.takeWhile (· ≠ (0x2f : BitVec 8))).reverse = part at *
  rw [List.length_append, List.length_append, List.length_singleton]
  by_cases whole : part.length = path.length
  · rw [if_pos whole, if_pos (by omega), Option.map_none]
  · rw [if_neg whole, if_neg (by omega), Option.map_some, Nat.add_sub_add_right, List.take_append_of_le_length (by omega)]

/-- The last slash is at the end of what `fat32_file_open` takes for the directory. -/
theorem strrchr_splitPath (path : List Byte) :
    strrchr slash path 0 none = (Fat32.splitPath path).map fun split => split.1.length - 1 := by
  induction path using List.reverseRecOn with
  | nil => rfl
  | append_singleton path c ih =>
    rw [strrchr_concat]
    by_cases isSlash : c = slash
    · rw [if_pos isSlash, isSlash, splitPath_slash, Option.map_some, List.length_append, List.length_singleton,
        Nat.zero_add, Nat.add_sub_cancel]
    · rw [if_neg isSlash, ih, splitPath_other isSlash, Option.map_map]
      rfl

theorem splitPath_prefix {path dir base : List Byte} (split : Fat32.splitPath path = some (dir, base)) :
    0 < dir.length ∧ path.take dir.length = dir := by
  unfold Fat32.splitPath at split
  simp only [] at split
  split at split
  · cases split
  · next part =>
    obtain ⟨rfl, -⟩ := Prod.mk.inj (Option.some.inj split)
    have base : (path.reverse.takeWhile (· ≠ (0x2f : BitVec 8))).reverse.length ≤ path.length := by
      rw [List.length_reverse]
      exact (List.takeWhile_sublist _).length_le.trans_eq List.length_reverse
    rw [List.length_take_of_le (Nat.sub_le ..)]
    exact ⟨by omega, rfl⟩

theorem dirname_inside_iff (path : List Byte) (dirname : Int → Byte) :
    DirnameInside path dirname ↔ ∀ dir base, Fat32.splitPath path = some (dir, base) → dir.length < diskMaxPath := by
  unfold DirnameInside fileDirname
  rw [strrchr_splitPath path, Option.map_map]
  cases parts : Fat32.splitPath path with
  | none => simp
  | some both =>
    obtain ⟨dir, base⟩ := both
    obtain ⟨positive, isPrefix⟩ := splitPath_prefix parts
    have whole : dir.length - 1 + 1 = dir.length := by omega
    simp only [Option.map_some, Function.comp_apply, whole, isPrefix, Option.some.injEq, Prod.mk.injEq]
    constructor
    · rintro inside dir' base' ⟨rfl, rfl⟩
      have last := (inside _ rfl _ List.mem_cons_self).2
      omega
    · rintro short after rfl k mem
      have fits := short dir base ⟨rfl, rfl⟩
      rcases List.mem_cons.1 mem with rfl | before
      · omega
      · rcases mem_memcpyText.1 before with never | inside
        · cases never
        · omega

/-- **Which paths fit: `cd` and `set_eval_path` as `CdFits` says, `pushf` never, `popf` up to 511
characters, and `fat32_file_open` up to 127 in the directory.** -/
theorem paths_fit_iff (opens : List Byte → Bool) (current argument path buffer dirname : Int → Byte)
    (cur arg : List Byte) (accepted : Accepted current cur) (argText : TextIn argument arg)
    (short : arg.length ≤ 1000) :
    (StaysInside (cd opens argument path ⟨current, []⟩) ↔ CdFits opens argument cur arg) ∧
      ¬ Inside diskMaxPath (pushfPath current argument path) ∧
      (Inside 512 (popfPath current argument buffer) ↔ cur.length + arg.length < 512) ∧
      (DirnameInside (withoutDisk (stringOf (popfPath current argument buffer).at_)) dirname ↔
        ∀ dir base, Fat32.splitPath (withoutDisk (cur ++ arg)) = some (dir, base) → dir.length < diskMaxPath) := by
  refine ⟨cd_fits_iff opens path accepted argText, pushfPath_outside path accepted argument,
    popfPath_inside_iff buffer accepted argText, ?_⟩
  rw [(popfPath_text buffer accepted argText short).stringOf_eq, dirname_inside_iff]

/-- `cd b` at `a:/`. -/
theorem short_path_fits :
    StaysInside (cd opensA (textBuffer (bytes "b")) (fun _ => 0) ⟨textBuffer (bytes "a:/"), []⟩) := by
  have accepted : Accepted (textBuffer (bytes "a:/")) (bytes "a:/") :=
    ⟨textBuffer_textIn (by decide) (by decide), by decide, ⟨chr 'a', [slash], by decide, by decide, by decide⟩,
      by decide⟩
  exact (paths_fit_iff opensA (textBuffer (bytes "a:/")) (textBuffer (bytes "b")) (fun _ => 0) (fun _ => 0)
    (fun _ => 0) (bytes "a:/") (bytes "b") accepted (textBuffer_textIn (by decide) (by decide)) (by decide)).1.2
    (.inr (.inr ⟨by decide, by decide⟩))

/-- `pushf` of one letter at `a:/` writes up to index 130, and `cd` of 125 letters leaves `path`. -/
theorem short_name_outside :
    Accepted (textBuffer (bytes "a:/")) (bytes "a:/") ∧
      130 ∈ (pushfPath (textBuffer (bytes "a:/")) (textBuffer (bytes "f")) fun _ => 0).written ∧
      ¬ Inside diskMaxPath (pushfPath (textBuffer (bytes "a:/")) (textBuffer (bytes "f")) fun _ => 0) ∧
      ¬ StaysInside (cd opensA (textBuffer (List.replicate 125 (chr 'b'))) (fun _ => 0)
        ⟨textBuffer (bytes "a:/"), []⟩) := by
  have accepted : Accepted (textBuffer (bytes "a:/")) (bytes "a:/") :=
    ⟨textBuffer_textIn (by decide) (by decide), by decide, ⟨chr 'a', [slash], by decide, by decide, by decide⟩,
      by decide⟩
  have count : (List.replicate 125 (chr 'b')).length = 125 := List.length_replicate
  have letters : TextIn (textBuffer (List.replicate 125 (chr 'b'))) (List.replicate 125 (chr 'b')) := by
    refine textBuffer_textIn (fun c mem => ?_) (by rw [count]; decide)
    rw [List.eq_of_mem_replicate mem]
    decide
  refine ⟨accepted, by decide +kernel, pushfPath_outside _ accepted _, fun stays => ?_⟩
  rcases (cd_fits_iff opensA _ accepted letters).1 stays with isColon | isUp | ⟨fits, -⟩
  · have second := letters.lies.chars 1 (by rw [count]; decide)
    rw [List.getElem_replicate] at second
    exact absurd (second.symm.trans isColon) (by decide)
  · have length := congrArg List.length isUp
    rw [count] at length
    exact absurd length (by decide)
  · rw [count] at fits
    exact absurd fits (by decide)

end Lengths

end TestOs.Console
