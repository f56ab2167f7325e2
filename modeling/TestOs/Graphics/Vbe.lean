/-
# Graphics.Vbe -- pixels, characters and byte ranges of the frame buffer

The memory from the start of the frame buffer on is a sequence of bytes, and a
pointer into it is its distance from the start.  `put_pixel` drops a position that
is not on the screen; `put_dword_pixels` and `send_dword_pixels` check nothing and
run over every byte from the first pixel of a rectangle to the place where the
pixel behind its last corner would be.  Two logs are kept beside the bytes: the
positions that were drawn at, and the bytes that were read or written.
-/
import TestOs.Library.Sweeps

namespace TestOs.Graphics

open TestOs.Library

set_option autoImplicit false

/-- The position that `put_pixel` is given, as `int`s. -/
abbrev Pixel := BitVec 32 × BitVec 32

/-- What `init_vbe` reads: the sizes are numbers of 16 bits. -/
structure Screen where
  width : BitVec 16
  height : BitVec 16

/-- `vbe.width` -/
def Screen.columns (s : Screen) : BitVec 32 := s.width.setWidth 32

/-- `vbe.height` -/
def Screen.lines (s : Screen) : BitVec 32 := s.height.setWidth 32

/-- `screen_length`, the bytes of a line. -/
def Screen.length (s : Screen) : BitVec 32 := s.columns * 3

/-- The bytes of the frame buffer. -/
def Screen.frame (s : Screen) : Nat := s.width.toNat * s.height.toNat * 3

structure Color where
  r : BitVec 8
  g : BitVec 8
  b : BitVec 8

/-- A pixel in memory. -/
def Color.byte (c : Color) : Nat → BitVec 8
  | 0 => c.b
  | 1 => c.g
  | _ => c.r

/-- `RED`, `GREEN` and `BLUE`. -/
def Color.ofWord (color : BitVec 32) : Color :=
  ⟨((color >>> 24) &&& 0xff).setWidth 8, ((color >>> 16) &&& 0xff).setWidth 8,
    ((color >>> 8) &&& 0xff).setWidth 8⟩

/-- `colors`: its first three bytes, and the other three. -/
structure Colors where
  front : Color
  back : Color

structure Video where
  bytes : Nat → BitVec 8
  colors : Colors
  drawn : List Pixel
  touched : List Nat

section Code

variable (s : Screen)

/-- Where a pixel is in memory. -/
def offset (x y : BitVec 32) : Nat := (y * s.length + x * 3).toNat

def setColor (color background : BitVec 32) (v : Video) : Video :=
  { v with colors := ⟨Color.ofWord color, Color.ofWord background⟩ }

def setColorInvert (v : Video) : Video := { v with colors := ⟨v.colors.back, v.colors.front⟩ }

def putPixel (x y : BitVec 32) (color : Color) (v : Video) : Video :=
  if s.columns ≤ x ∨ s.lines ≤ y then v
  else
    let pos := offset s x y
    { v with
      bytes := setBlock 3 pos color.byte v.bytes
      drawn := (x, y) :: v.drawn
      touched := List.range' pos 3 ++ v.touched }

/-- `*pixel_start = color` -/
def storePixel (color : Color) (p : Nat) (v : Video) : Video :=
  { v with
    bytes := setBlock 3 p color.byte v.bytes
    touched := List.range' p 3 ++ v.touched }

def putDwordPixels (x y width height : BitVec 32) (color : Color) (v : Video) : Video :=
  sweep 3 (storePixel color) (offset s (x + width) (y + height)) (offset s x y) v

/-- `*pixel_target = *pixel_start` -/
def copyWord (target source : Nat) (v : Video) : Video :=
  { v with
    bytes := copyBlock 4 target source v.bytes
    touched := List.range' source 4 ++ List.range' target 4 ++ v.touched }

/-- The pointers run side by side. -/
def sendDwordPixels (x1 y1 width height x2 y2 : BitVec 32) (v : Video) : Video :=
  let start := offset s x1 y1
  sweep 4 (fun p => copyWord (offset s x2 y2 + (p - start)) p)
    (offset s (x1 + width) (y1 + height)) start v

/-- The character's place in `ascii_fonts`. -/
def glyph (n : BitVec 8) : Nat := if n.toNat < 32 ∨ 126 < n.toNat then 95 else n.toNat - 32

/-- One line of a character, from left to right. -/
def putCharLine (font : BitVec 8) (x y : BitVec 32) (v : Video) : Video :=
  (List.range 8).foldl (fun v column => putPixel s (x + BitVec.ofNat 32 column) y
    (if font.getLsbD (7 - column) then v.colors.front else v.colors.back) v) v

def putChar (asciiFonts : Nat → Nat → BitVec 8) (n : BitVec 8) (x y : BitVec 32) (v : Video) : Video :=
  (List.range 16).foldl (fun v line =>
    putCharLine s (asciiFonts (glyph n) line) x (y + BitVec.ofNat 32 line) v) v

end Code

/-! ## What is drawn -/

/-- A position on the screen. -/
def Visible (s : Screen) (q : Pixel) : Prop := q.1 < s.columns ∧ q.2 < s.lines

/-- A position in the character cell whose first pixel is at `(x, y)`. -/
def InCell (x y : BitVec 32) (q : Pixel) : Prop :=
  ∃ line < 16, ∃ column < 8, q = (x + BitVec.ofNat 32 column, y + BitVec.ofNat 32 line)

section Drawn

variable {s : Screen} {asciiFonts : Nat → Nat → BitVec 8} {v : Video} {x y : BitVec 32} {q : Pixel}

/-- A loop whose turns each draw what they draw whatever came before. -/
theorem mem_drawn_foldl {ι : Type} {body : Video → ι → Video} {draws : ι → Prop}
    (turn : ∀ v i, q ∈ (body v i).drawn ↔ q ∈ v.drawn ∨ draws i) (l : List ι) (v : Video) :
    q ∈ (l.foldl body v).drawn ↔ q ∈ v.drawn ∨ ∃ i ∈ l, draws i := by
  induction l generalizing v with
  | nil => simp
  | cons i l ih =>
      rw [List.foldl_cons, ih, turn, or_assoc, List.exists_mem_cons_iff]

theorem mem_drawn_putPixel {color : Color} :
    q ∈ (putPixel s x y color v).drawn ↔ q ∈ v.drawn ∨ Visible s q ∧ q = (x, y) := by
  unfold putPixel Visible
  split
  · rename_i clipped
    constructor
    · intro before
      exact .inl before
    · rintro (before | ⟨visible, rfl⟩)
      · exact before
      · rw [← BitVec.not_lt, ← BitVec.not_lt, ← not_and_or] at clipped
        exact absurd visible clipped
  · rename_i visible
    rw [← BitVec.not_lt, ← BitVec.not_lt, ← not_and_or, not_not] at visible
    rw [List.mem_cons]
    constructor
    · rintro (rfl | before)
      · exact .inr ⟨visible, rfl⟩
      · exact .inl before
    · rintro (before | ⟨-, rfl⟩)
      · exact .inr before
      · exact .inl rfl

/-- `put_char` draws what of its cell is on the screen. -/
theorem mem_drawn_putChar {n : BitVec 8} :
    q ∈ (putChar s asciiFonts n x y v).drawn ↔ q ∈ v.drawn ∨ Visible s q ∧ InCell x y q := by
  have line (v : Video) (i : Nat) : q ∈ (putCharLine s (asciiFonts (glyph n) i) x
      (y + BitVec.ofNat 32 i) v).drawn ↔ q ∈ v.drawn ∨ ∃ column ∈ List.range 8,
        Visible s q ∧ q = (x + BitVec.ofNat 32 column, y + BitVec.ofNat 32 i) := by
    apply mem_drawn_foldl
    intro v column
    exact mem_drawn_putPixel
  unfold putChar
  rw [mem_drawn_foldl line]
  unfold InCell
  simp only [List.mem_range]
  apply or_congr_right
  constructor
  · rintro ⟨i, inCell, column, inLine, visible, same⟩
    exact ⟨visible, i, inCell, column, inLine, same⟩
  · rintro ⟨visible, i, inCell, column, inLine, same⟩
    exact ⟨i, inCell, column, inLine, visible, same⟩

@[simp] theorem setColor_drawn {color background : BitVec 32} :
    (setColor color background v).drawn = v.drawn := rfl

@[simp] theorem setColorInvert_drawn : (setColorInvert v).drawn = v.drawn := rfl

end Drawn

/-! ## Byte ranges -/

/-- What a fill has done after `k` turns. -/
structure Filled (color : Color) (start k : Nat) (v after : Video) : Prop where
  bytes : ∀ n, after.bytes n =
    if start ≤ n ∧ n < start + 3 * k then color.byte ((n - start) % 3) else v.bytes n
  touched : ∀ n, n ∈ after.touched ↔ n ∈ v.touched ∨ start ≤ n ∧ n < start + 3 * k
  drawn : after.drawn = v.drawn
  colors : after.colors = v.colors

/-- What a copy has done after `k` turns. -/
structure Sent (target start k : Nat) (v after : Video) : Prop where
  bytes : target + 4 ≤ start → ∀ n, after.bytes n =
    if target ≤ n ∧ n < target + 4 * k then v.bytes (start + (n - target)) else v.bytes n
  touched : ∀ n, n ∈ after.touched ↔
    n ∈ v.touched ∨ (start ≤ n ∧ n < start + 4 * k) ∨ target ≤ n ∧ n < target + 4 * k
  drawn : after.drawn = v.drawn
  colors : after.colors = v.colors

section Ranges

variable {s : Screen} {color : Color} {start target k : Nat} {v t : Video}

theorem Filled.step (filled : Filled color start k v t) :
    Filled color start (k + 1) v (storePixel color (start + 3 * k) t) where
  bytes := setBlock_sweeps filled.bytes
  touched := by
    intro n
    unfold storePixel
    simp only [List.mem_append, List.mem_range'_1, filled.touched]
    rw [or_left_comm]
    apply or_congr_right
    omega
  drawn := filled.drawn
  colors := filled.colors

theorem Sent.step (sent : Sent target start k v t) :
    Sent target start (k + 1) v (copyWord (target + 4 * k) (start + 4 * k) t) where
  bytes := fun down => copyBlock_sweeps down (sent.bytes down)
  touched := by
    intro n
    unfold copyWord
    simp only [List.mem_append, List.mem_range'_1, sent.touched]
    rw [or_left_comm]
    apply or_congr_right
    omega
  drawn := sent.drawn
  colors := sent.colors

/-- A fill comes to the end of the rectangle, and less than a pixel further. -/
theorem putDwordPixels_filled (s : Screen) (x y width height : BitVec 32) (color : Color) (v : Video) :
    let start := offset s x y
    let stop := offset s (x + width) (y + height)
    ∃ turns, Filled color start turns v (putDwordPixels s x y width height color v) ∧
      stop ≤ start + 3 * turns ∧ (start ≤ stop → start + 3 * turns < stop + 3) := by
  apply sweep_invariant (Filled color (offset s x y) · v ·)
  · constructor
    · intro n
      rw [if_neg (by omega)]
    · intro n
      rw [or_iff_left]
      omega
    · rfl
    · rfl
  · intro k t filled
    exact filled.step

/-- A copy comes to the end of the rectangle, and less than a word further. -/
theorem sendDwordPixels_sent (s : Screen) (x1 y1 width height x2 y2 : BitVec 32) (v : Video) :
    let start := offset s x1 y1
    let stop := offset s (x1 + width) (y1 + height)
    ∃ turns, Sent (offset s x2 y2) start turns v (sendDwordPixels s x1 y1 width height x2 y2 v) ∧
      stop ≤ start + 4 * turns ∧ (start ≤ stop → start + 4 * turns < stop + 4) := by
  apply sweep_invariant (Sent (offset s x2 y2) (offset s x1 y1) · v ·)
  · constructor
    · intro _ n
      rw [if_neg (by omega)]
    · intro n
      rw [or_iff_left]
      omega
    · rfl
    · rfl
  · intro k t sent
    rw [Nat.add_sub_cancel_left]
    exact sent.step

@[simp] theorem putDwordPixels_drawn {x y width height : BitVec 32} :
    (putDwordPixels s x y width height color v).drawn = v.drawn := by
  obtain ⟨_, filled, _⟩ := putDwordPixels_filled s x y width height color v
  exact filled.drawn

@[simp] theorem sendDwordPixels_drawn {x1 y1 width height x2 y2 : BitVec 32} :
    (sendDwordPixels s x1 y1 width height x2 y2 v).drawn = v.drawn := by
  obtain ⟨_, sent, _⟩ := sendDwordPixels_sent s x1 y1 width height x2 y2 v
  exact sent.drawn

end Ranges

end TestOs.Graphics
