/-
# Console.Scrolling -- the text moves up, and the copy runs on behind the frame buffer

At the last line `console_roll` erases the old cursor, copies the frame buffer up
by a line of text and clears the last line.  The text area is left as it should be
(`roll_shifts`).  But `send_dword_pixels` is told the height of the whole text area
instead of that without the first line, so it reads a line of text further than
the text area goes, and `console_cls` fills one line of pixels too many, because
the end of a rectangle is the end of the line behind it (`roll_reads_outside`,
`cls_writes_outside`).
-/
import TestOs.Console.Cursor

namespace TestOs.Console

open TestOs.Graphics

set_option autoImplicit false

/-- The bytes that a call reads or writes. -/
def touchedBy (call : ConsoleState → ConsoleState) (c : ConsoleState) : List Nat :=
  (call { c with video := { c.video with touched := [] } }).video.touched

/-- The bytes of a line of pixels. -/
def lineBytes (s : Screen) : Nat := s.width.toNat * 3

/-- The lines of pixels in the text area. -/
def textLines (s : Screen) : Nat := s.height.toNat / 16 * 16

/-- What scrolling should do: the text moves up by a line, the last line gets the clear colour,
and neither this nor clearing the screen leaves the frame buffer. -/
structure ScrollsInside (s : Screen) (asciiFonts : Nat → Nat → BitVec 8) (c : ConsoleState) : Prop where
  shifted : ∀ n < (textLines s - 16) * lineBytes s, (consoleRoll s asciiFonts c).video.bytes n =
    (c.put s asciiFonts 0x20 c.lastX c.lastY).video.bytes (16 * lineBytes s + n)
  cleared : ∀ n, (textLines s - 16) * lineBytes s ≤ n → n < textLines s * lineBytes s →
    (consoleRoll s asciiFonts c).video.bytes n = (Color.ofWord consoleClear).byte (n % 3)
  rollInside : ∀ n ∈ touchedBy (consoleRoll s asciiFonts) c, n < s.frame
  clsInside : ∀ n ∈ touchedBy (consoleCls s) c, n < s.frame

section Offsets

variable {s : Screen} {asciiFonts : Nat → Nat → BitVec 8} {c : ConsoleState} {x y : BitVec 32}

/-- No address of a byte of the screen, or of the seventeen lines behind it, is an overflow. -/
def Mapped (s : Screen) : Prop := (s.height.toNat + 17) * lineBytes s < 2 ^ 32

instance (s : Screen) : Decidable (Mapped s) := inferInstanceAs (Decidable (_ < _))

theorem offset_eq (fits : y.toNat * lineBytes s + x.toNat * 3 < 2 ^ 32) :
    offset s x y = y.toNat * lineBytes s + x.toNat * 3 := by
  have narrow := s.width.isLt
  have three : (3 : BitVec 32).toNat = 3 := rfl
  have isLength : s.length.toNat = lineBytes s := by
    unfold Screen.length lineBytes
    rw [BitVec.toNat_mul, toNat_columns, three]
    exact Nat.mod_eq_of_lt (by omega)
  unfold offset
  rw [BitVec.toNat_add, BitVec.toNat_mul, BitVec.toNat_mul, isLength, three,
    Nat.mod_eq_of_lt (by omega : y.toNat * lineBytes s < 2 ^ 32),
    Nat.mod_eq_of_lt (by omega : x.toNat * 3 < 2 ^ 32), Nat.mod_eq_of_lt fits]

/-- A rectangle from the left edge on ends in the line behind it. -/
theorem offset_end (mapped : Mapped s) {lines : Nat} (isY : y.toNat = lines)
    (isX : x.toNat ≤ s.width.toNat) (low : lines ≤ s.height.toNat + 16) :
    offset s x y = lines * lineBytes s + x.toNat * 3 := by
  have above : (lines + 1) * lineBytes s ≤ (s.height.toNat + 17) * lineBytes s :=
    Nat.mul_le_mul_right _ (by omega)
  have isSum : (lines + 1) * lineBytes s = lines * lineBytes s + s.width.toNat * 3 := by
    rw [Nat.succ_mul]
    rfl
  unfold Mapped at mapped
  subst isY
  apply offset_eq
  omega

/-- The rectangles of `console_roll`. -/
theorem offset_roll (tall : 32 ≤ s.height.toNat) (mapped : Mapped s) :
    offset s 0 0 = 0 ∧ offset s 0 16 = 16 * lineBytes s ∧
      offset s (0 + maxX s) (16 + maxY s) =
        (16 + textLines s) * lineBytes s + s.width.toNat / 8 * 8 * 3 ∧
      offset s 0 (maxY s - 16) = (textLines s - 16) * lineBytes s ∧
      offset s (0 + maxX s) (maxY s - 16 + 16) =
        textLines s * lineBytes s + s.width.toNat / 8 * 8 * 3 := by
  have low := s.height.isLt
  have isMaxX := toNat_maxX (s := s)
  have isMaxY := toNat_maxY (s := s)
  have zero : (0 : BitVec 32).toNat = 0 := rfl
  have sixteen : (16 : BitVec 32).toNat = 16 := rfl
  have isTop : (16 + maxY s).toNat = 16 + textLines s := by
    unfold textLines
    rw [BitVec.toNat_add, sixteen, isMaxY]
    exact Nat.mod_eq_of_lt (by omega)
  have isLast : (maxY s - 16).toNat = textLines s - 16 := by
    unfold textLines
    bv_omega
  have isText : (maxY s).toNat = textLines s := isMaxY
  have bound : textLines s ≤ s.height.toNat := Nat.div_mul_le_self ..
  rw [zero_add, sub_add_cancel]
  refine ⟨?_, ?_, ?_, ?_, ?_⟩
  · rw [offset_end mapped zero (by omega) (by omega), zero, Nat.zero_mul]
  · rw [offset_end mapped sixteen (by omega) (by omega), zero]
    omega
  · rw [offset_end mapped isTop (by omega) (by omega), isMaxX]
  · rw [offset_end mapped isLast (by omega) (by omega), zero]
    omega
  · rw [offset_end mapped isText (by omega) (by omega), isMaxX]

/-- **The text moves up by a line and the last line is cleared.** -/
theorem roll_shifts (wide : 8 ≤ s.width.toNat) (tall : 32 ≤ s.height.toNat) (mapped : Mapped s)
    (bottom : AtBottom s c) :
    (∀ n < (textLines s - 16) * lineBytes s, (consoleRoll s asciiFonts c).video.bytes n =
      (c.put s asciiFonts 0x20 c.lastX c.lastY).video.bytes (16 * lineBytes s + n)) ∧
    (∀ n, (textLines s - 16) * lineBytes s ≤ n → n < textLines s * lineBytes s →
      (consoleRoll s asciiFonts c).video.bytes n = (Color.ofWord consoleClear).byte (n % 3)) := by
  obtain ⟨isTarget, isSource, isSourceEnd, isLast, isLastEnd⟩ := offset_roll tall mapped
  have isTop : (16 + textLines s) * lineBytes s = 16 * lineBytes s + textLines s * lineBytes s :=
    Nat.add_mul ..
  have above : (textLines s - 16) * lineBytes s ≤ textLines s * lineBytes s :=
    Nat.mul_le_mul_right _ (by omega)
  have whole : (textLines s - 16) * lineBytes s = 3 * ((textLines s - 16) * s.width.toNat) := by
    unfold lineBytes
    ring
  have long : 24 ≤ lineBytes s := by
    unfold lineBytes
    omega
  rw [consoleRoll_bottom bottom]
  simp only []
  generalize (c.put s asciiFonts 0x20 c.lastX c.lastY).video = erased
  obtain ⟨turns, sent, sentEnd, -⟩ := sendDwordPixels_sent s 0 16 (maxX s) (maxY s) 0 0 erased
  rw [isTarget, isSource] at sent
  rw [isSource, isSourceEnd, isTop] at sentEnd
  generalize sendDwordPixels s 0 16 (maxX s) (maxY s) 0 0 erased = moved at sent ⊢
  obtain ⟨turns', filled, filledEnd, -⟩ :=
    putDwordPixels_filled s 0 (maxY s - 16) (maxX s) 16 (Color.ofWord consoleClear) moved
  rw [isLast] at filled
  rw [isLast, isLastEnd] at filledEnd
  constructor
  · intro n below
    rw [filled.bytes, if_neg (by omega), sent.bytes (by omega), if_pos (by omega), Nat.sub_zero]
  · intro n from' below
    have place : n - (textLines s - 16) * lineBytes s =
        n - 3 * ((textLines s - 16) * s.width.toNat) := by rw [whole]
    rw [filled.bytes, if_pos (by omega), place, Nat.sub_mul_mod (by omega)]

/-- The copy comes past the first byte behind the frame buffer. -/
theorem frame_mem_touched (wide : 8 ≤ s.width.toNat) (tall : 32 ≤ s.height.toNat) (mapped : Mapped s)
    (bottom : AtBottom s c) : s.frame ∈ (consoleRoll s asciiFonts c).video.touched := by
  obtain ⟨-, isSource, isSourceEnd, -, -⟩ := offset_roll tall mapped
  have first : 16 * lineBytes s ≤ s.height.toNat * lineBytes s := Nat.mul_le_mul_right _ (by omega)
  have behind : s.height.toNat * lineBytes s ≤ (16 + textLines s) * lineBytes s := by
    apply Nat.mul_le_mul_right
    unfold textLines
    omega
  have isFrame : s.frame = s.height.toNat * lineBytes s := by
    unfold Screen.frame lineBytes
    ring
  rw [consoleRoll_bottom bottom]
  simp only []
  generalize (c.put s asciiFonts 0x20 c.lastX c.lastY).video = erased
  obtain ⟨turns, sent, sentEnd, -⟩ := sendDwordPixels_sent s 0 16 (maxX s) (maxY s) 0 0 erased
  rw [isSource] at sent
  rw [isSource, isSourceEnd] at sentEnd
  obtain ⟨turns', filled, -⟩ := putDwordPixels_filled s 0 (maxY s - 16) (maxX s) 16
    (Color.ofWord consoleClear) (sendDwordPixels s 0 16 (maxX s) (maxY s) 0 0 erased)
  rw [filled.touched, sent.touched, isFrame]
  exact .inl (.inr (.inl (by omega)))

/-- So that byte is read when the console scrolls. -/
theorem roll_reads_outside (wide : 8 ≤ s.width.toNat) (tall : 32 ≤ s.height.toNat) (mapped : Mapped s)
    (bottom : AtBottom s c) : s.frame ∈ touchedBy (consoleRoll s asciiFonts) c := by
  have bottom' : AtBottom s { c with video := { c.video with touched := [] } } := bottom
  exact frame_mem_touched wide tall mapped bottom'

/-- `console_cls` writes the frame buffer and one line more. -/
theorem cls_touched_iff (mapped : Mapped s) (n : Nat) :
    n ∈ touchedBy (consoleCls s) c ↔ n < (s.height.toNat + 1) * lineBytes s := by
  have zero : (0 : BitVec 32).toNat = 0 := rfl
  have isStart : offset s 0 0 = 0 := by
    rw [offset_end mapped zero (by omega) (by omega), zero, Nat.zero_mul]
  have isEnd : offset s (0 + s.columns) (0 + s.lines) = (s.height.toNat + 1) * lineBytes s := by
    rw [zero_add, zero_add, offset_end mapped toNat_lines (by rw [toNat_columns]) (by omega),
      toNat_columns, Nat.succ_mul]
    rfl
  have whole : (s.height.toNat + 1) * lineBytes s = 3 * ((s.height.toNat + 1) * s.width.toNat) := by
    unfold lineBytes
    ring
  unfold touchedBy consoleCls
  simp only []
  obtain ⟨turns, filled, ends, near⟩ := putDwordPixels_filled s 0 0 s.columns s.lines
    (Color.ofWord consoleClear) { c.video with touched := [] }
  rw [isStart] at filled
  rw [isStart, isEnd, whole] at ends near
  rw [filled.touched, whole]
  simp only [List.not_mem_nil, false_or]
  omega

theorem cls_writes_outside (wide : 8 ≤ s.width.toNat) (mapped : Mapped s) :
    s.frame ∈ touchedBy (consoleCls s) c := by
  have isFrame : s.frame = s.height.toNat * lineBytes s := by
    unfold Screen.frame lineBytes
    ring
  have long : 24 ≤ lineBytes s := by
    unfold lineBytes
    omega
  rw [cls_touched_iff mapped, isFrame, Nat.succ_mul]
  omega

/-- **On no screen does scrolling stay in the frame buffer.** -/
theorem scrolls_outside (wide : 8 ≤ s.width.toNat) (tall : 32 ≤ s.height.toNat) (mapped : Mapped s)
    (bottom : AtBottom s c) : ¬ ScrollsInside s asciiFonts c := by
  intro scrolls
  have roll := scrolls.rollInside _ (roll_reads_outside wide tall mapped bottom)
  exact Nat.lt_irrefl _ roll

end Offsets

/-- In the last line of a screen of 1024 by 768. -/
theorem scrolls_outside_large :
    ¬ ScrollsInside ⟨1024, 768⟩ (fun _ _ => 0)
      ⟨0, 752, 0, 752, ⟨fun _ => 0, ⟨⟨0, 0, 0⟩, ⟨0, 0, 0⟩⟩, [], []⟩⟩ :=
  scrolls_outside (by decide) (by decide) (by decide) (by decide)

/-- After 29 newlines on a screen of 640 by 480. -/
theorem scrolls_outside_small :
    ¬ ScrollsInside ⟨640, 480⟩ (fun _ _ => 0)
      ⟨0, 464, 0, 464, ⟨fun _ => 0, ⟨⟨0, 0, 0⟩, ⟨0, 0, 0⟩⟩, [], []⟩⟩ := by
  intro scrolls
  have written := scrolls.clsInside _ (cls_writes_outside (by decide) (by decide))
  exact Nat.lt_irrefl _ written

end TestOs.Console
