/-
# Console.Cursor -- the cursor stays on the grid, the cells it leaves do not

The cursor is always in the text area, in a column that is a multiple of 8 and a
line that is a multiple of 16 (`OnGrid`).  What is drawn is not always: while the
console scrolls, `console_cur` remembers the place behind the last line, and when
a row is full the place behind it, and the next call that erases the old cursor
draws a blank cell there.  Where the text area does not fill the screen that cell
can be seen.  `drawn_inside_iff` gives the runs in which it never is.
-/
import TestOs.Console.Output

namespace TestOs.Console

open TestOs.Graphics

set_option autoImplicit false

/-- A position in the text area. -/
def InText (s : Screen) (q : Pixel) : Prop := q.1 < maxX s ∧ q.2 < maxY s

/-- Nothing was drawn outside the text area. -/
def DrawnInside (s : Screen) (v : Video) : Prop := ∀ q ∈ v.drawn, InText s q

/-- Nothing outside the text area can be seen of the cell at `(x, y)`. -/
def Harmless (s : Screen) (x y : BitVec 32) : Prop := ∀ q, Visible s q → InCell x y q → InText s q

/-- The text area ends where the screen does: on the right. -/
def WholeColumns (s : Screen) : Prop := s.width.toNat % 8 = 0

/-- And at the bottom. -/
def WholeRows (s : Screen) : Prop := s.height.toNat % 16 = 0

instance (s : Screen) : Decidable (WholeColumns s) := inferInstanceAs (Decidable (_ = _))

instance (s : Screen) : Decidable (WholeRows s) := inferInstanceAs (Decidable (_ = _))

/-- A cell of the text area. -/
structure TextCell (s : Screen) (x y : BitVec 32) : Prop where
  x_less : x < maxX s
  y_less : y < maxY s
  x_whole : 8 ∣ x.toNat
  y_whole : 16 ∣ y.toNat

/-! ## Cells -/

section Cells

variable {s : Screen} {asciiFonts : Nat → Nat → BitVec 8} {x y : BitVec 32} {v : Video} {c : ConsoleState}

theorem toNat_columns : s.columns.toNat = s.width.toNat := by
  unfold Screen.columns
  exact BitVec.toNat_setWidth_of_le (by omega)

theorem toNat_lines : s.lines.toNat = s.height.toNat := by
  unfold Screen.lines
  exact BitVec.toNat_setWidth_of_le (by omega)

theorem toNat_maxX : (maxX s).toNat = s.width.toNat / 8 * 8 := by
  have small := s.width.isLt
  have isColumns := toNat_columns (s := s)
  unfold maxX
  rw [BitVec.toNat_mul, BitVec.toNat_udiv, isColumns]
  exact Nat.mod_eq_of_lt (by change s.width.toNat / 8 * 8 < 2 ^ 32; omega)

theorem toNat_maxY : (maxY s).toNat = s.height.toNat / 16 * 16 := by
  have small := s.height.isLt
  have isLines := toNat_lines (s := s)
  unfold maxY
  rw [BitVec.toNat_mul, BitVec.toNat_udiv, isLines]
  exact Nat.mod_eq_of_lt (by change s.height.toNat / 16 * 16 < 2 ^ 32; omega)

/-- `put_char` keeps the drawing inside exactly where its cell is harmless. -/
theorem drawnInside_putChar {char : BitVec 8} :
    DrawnInside s (putChar s asciiFonts char x y v) ↔ DrawnInside s v ∧ Harmless s x y := by
  unfold DrawnInside Harmless
  simp only [mem_drawn_putChar]
  constructor
  · intro inside
    exact ⟨fun q before => inside q (.inl before), fun q visible inCell =>
      inside q (.inr ⟨visible, inCell⟩)⟩
  · rintro ⟨inside, harmless⟩ q (before | ⟨visible, inCell⟩)
    · exact inside q before
    · exact harmless q visible inCell

/-- The exchange of the colours is not seen in what is drawn. -/
@[simp] theorem drawnInside_setColorInvert : DrawnInside s (setColorInvert v) ↔ DrawnInside s v := Iff.rfl

/-- A place on the grid of cells, in the text area or not. -/
structure Aligned (x y : BitVec 32) : Prop where
  x_whole : 8 ∣ x.toNat
  y_whole : 16 ∣ y.toNat
  x_small : x.toNat < 2 ^ 20
  y_small : y.toNat < 2 ^ 20

theorem harmless_iff (aligned : Aligned x y) :
    Harmless s x y ↔ (x.toNat < s.width.toNat → y.toNat < s.height.toNat →
      x.toNat < s.width.toNat / 8 * 8 ∧ y.toNat < s.height.toNat / 16 * 16) := by
  obtain ⟨x_whole, y_whole, x_small, y_small⟩ := aligned
  unfold Harmless Visible InText InCell
  simp only [BitVec.lt_def, toNat_maxX, toNat_maxY, toNat_columns, toNat_lines]
  constructor
  · intro harmless left above
    exact harmless (x, y) ⟨left, above⟩ ⟨0, by omega, 0, by omega, by simp⟩
  · rintro inside q ⟨left, above⟩ ⟨line, inCell, column, inLine, rfl⟩
    have isX : (x + BitVec.ofNat 32 column).toNat = x.toNat + column := by bv_omega
    have isY : (y + BitVec.ofNat 32 line).toNat = y.toNat + line := by bv_omega
    simp only [isX, isY] at left above ⊢
    have inside' := inside (by omega) (by omega)
    omega

theorem TextCell.aligned (cell : TextCell s x y) : Aligned x y := by
  obtain ⟨x_less, y_less, x_whole, y_whole⟩ := cell
  have narrow := s.width.isLt
  have low := s.height.isLt
  rw [BitVec.lt_def, toNat_maxX] at x_less
  rw [BitVec.lt_def, toNat_maxY] at y_less
  exact ⟨x_whole, y_whole, by omega, by omega⟩

theorem TextCell.harmless (cell : TextCell s x y) : Harmless s x y := by
  have x_less := cell.x_less
  have y_less := cell.y_less
  rw [BitVec.lt_def, toNat_maxX] at x_less
  rw [BitVec.lt_def, toNat_maxY] at y_less
  rw [harmless_iff cell.aligned]
  intro _ _
  exact ⟨x_less, y_less⟩

/-- The cell behind the last line can be seen if there is anything behind the last line. -/
theorem harmless_below (wide : 8 ≤ s.width.toNat) : Harmless s 0 (maxY s) ↔ WholeRows s := by
  have low := s.height.isLt
  have zero : (0 : BitVec 32).toNat = 0 := rfl
  have isMaxY := toNat_maxY (s := s)
  have aligned : Aligned 0 (maxY s) := ⟨by simp, by omega, by simp, by omega⟩
  unfold WholeRows
  rw [harmless_iff aligned, isMaxY, zero]
  constructor
  · intro inside
    by_contra part
    have below := inside (by omega) (by omega)
    omega
  · intro whole
    omega

/-- A cell behind a full row can be seen if it is the first one there and the row ends before
the screen. -/
theorem harmless_right (aligned : Aligned x y) (full : maxX s ≤ x) (y_less : y < maxY s) :
    Harmless s x y ↔ x ≠ maxX s ∨ WholeColumns s := by
  rw [BitVec.le_def, toNat_maxX] at full
  rw [BitVec.lt_def, toNat_maxY] at y_less
  have x_whole := aligned.x_whole
  unfold WholeColumns
  rw [harmless_iff aligned, Ne, ← BitVec.toNat_inj, toNat_maxX]
  constructor
  · intro inside
    by_contra part
    have left := inside (by omega) (by omega)
    omega
  · intro outside
    omega

end Cells

/-! ## The parts of a step -/

/-- Between two steps the cursor is in the text area, and the place that is remembered as well
or else it is the one behind the last line. -/
structure Placed (s : Screen) (c : ConsoleState) : Prop where
  cursor : TextCell s c.x c.y
  last : TextCell s c.lastX c.lastY ∨ c.lastX = 0 ∧ c.lastY = maxY s

/-- Nothing can be seen of the old cursor outside the text area. -/
def Tidy (s : Screen) (c : ConsoleState) : Prop := c.lastY < maxY s ∨ WholeRows s

instance (s : Screen) (c : ConsoleState) : Decidable (Tidy s c) := inferInstanceAs (Decidable (_ ∨ _))

section Parts

variable {s : Screen} {asciiFonts : Nat → Nat → BitVec 8} {flushOld flushNew : Bool} {c : ConsoleState}

theorem Placed.harmless_last (wide : 8 ≤ s.width.toNat) (placed : Placed s c) :
    Harmless s c.lastX c.lastY ↔ Tidy s c := by
  unfold Tidy
  rcases placed.last with cell | ⟨left, below⟩
  · exact iff_of_true cell.harmless (.inl cell.y_less)
  · rw [left, below, harmless_below wide, or_iff_right]
    exact BitVec.lt_irrefl _

/-- What `console_cur` erases and draws. -/
theorem drawnInside_consoleCur :
    DrawnInside s (consoleCur s asciiFonts flushOld flushNew c).video ↔ DrawnInside s c.video ∧
      (flushOld = true → Harmless s c.lastX c.lastY) ∧ (flushNew = true → Harmless s c.x c.y) := by
  cases flushOld <;> cases flushNew
  · simp [consoleCur]
  · simp [consoleCur, drawnInside_putChar]
  · simp [consoleCur, ConsoleState.put, drawnInside_putChar]
  · simp [consoleCur, ConsoleState.put, drawnInside_putChar, and_assoc]

/-- `console_cur` in the text area draws nothing outside, so what counts is what it erases. -/
theorem drawnInside_consoleCur_of_cell (cell : TextCell s c.x c.y) :
    DrawnInside s (consoleCur s asciiFonts flushOld flushNew c).video ↔
      DrawnInside s c.video ∧ (flushOld = true → Harmless s c.lastX c.lastY) := by
  have harmless := cell.harmless
  rw [drawnInside_consoleCur]
  tauto

theorem placed_consoleCur (cell : TextCell s c.x c.y) :
    Placed s (consoleCur s asciiFonts flushOld flushNew c) := by
  constructor
  · rw [consoleCur_x, consoleCur_y]
    exact cell
  · rw [consoleCur_lastX, consoleCur_lastY]
    exact .inl cell

/-- The next line is in the text area, or it begins where the text area ends. -/
theorem bottom_iff (y_less : c.y < maxY s) (y_whole : 16 ∣ c.y.toNat) :
    (¬ AtBottom s c → c.y + 16 < maxY s ∧ 16 ∣ (c.y + 16).toNat) ∧ (AtBottom s c → c.y + 16 = maxY s) := by
  have low := s.height.isLt
  have isMaxY := toNat_maxY (s := s)
  rw [BitVec.lt_def, isMaxY] at y_less
  have sixteen : (16 : BitVec 32).toNat = 16 := rfl
  have isNext : (c.y + 16).toNat = c.y.toNat + 16 := by
    rw [BitVec.toNat_add, sixteen]
    exact Nat.mod_eq_of_lt (by omega)
  unfold AtBottom
  rw [BitVec.le_def, BitVec.lt_def, ← BitVec.toNat_inj, isNext, isMaxY]
  omega

/-- `console_roll` goes to the start of a line of the text area. -/
theorem cell_consoleRoll (wide : 8 ≤ s.width.toNat) (y_less : c.y < maxY s) (y_whole : 16 ∣ c.y.toNat) :
    TextCell s (consoleRoll s asciiFonts c).x (consoleRoll s asciiFonts c).y := by
  obtain ⟨above, -⟩ := bottom_iff y_less y_whole
  have x_less : (0 : BitVec 32) < maxX s := by
    rw [BitVec.lt_def, toNat_maxX]
    change 0 < s.width.toNat / 8 * 8
    omega
  have x_whole : 8 ∣ (0 : BitVec 32).toNat := by simp
  by_cases bottom : AtBottom s c
  · rw [consoleRoll_bottom bottom]
    exact ⟨x_less, y_less, x_whole, y_whole⟩
  · rw [consoleRoll_above bottom]
    exact ⟨x_less, (above bottom).1, x_whole, (above bottom).2⟩

/-- Where it scrolls, it erases the old cursor. -/
theorem drawnInside_consoleRoll : DrawnInside s (consoleRoll s asciiFonts c).video ↔
    DrawnInside s c.video ∧ (AtBottom s c → Harmless s c.lastX c.lastY) := by
  by_cases bottom : AtBottom s c
  · have scrolled : (consoleRoll s asciiFonts c).video.drawn =
        (c.put s asciiFonts 0x20 c.lastX c.lastY).video.drawn := by
      rw [consoleRoll_bottom bottom]
      simp
    unfold DrawnInside
    rw [scrolled]
    rw [imp_iff_right bottom]
    exact drawnInside_putChar
  · rw [consoleRoll_above bottom]
    tauto

/-- And what is remembered afterwards can be seen if there is anything behind the last line. -/
theorem harmless_consoleRoll (wide : 8 ≤ s.width.toNat) (y_less : c.y < maxY s)
    (y_whole : 16 ∣ c.y.toNat) :
    Harmless s (consoleRoll s asciiFonts c).lastX (consoleRoll s asciiFonts c).lastY ↔
      (AtBottom s c → WholeRows s) ∧ (¬ AtBottom s c → Harmless s c.lastX c.lastY) := by
  obtain ⟨-, below⟩ := bottom_iff y_less y_whole
  by_cases bottom : AtBottom s c
  · rw [consoleRoll_bottom bottom, below bottom, harmless_below wide]
    tauto
  · rw [consoleRoll_above bottom]
    tauto

/-- Behind the end of a row: `console_cur` remembers that place before the console rolls. -/
theorem drawnInside_rollFull (aligned : Aligned c.x c.y) (full : maxX s ≤ c.x) (y_less : c.y < maxY s) :
    DrawnInside s (consoleRoll s asciiFonts (consoleCur s asciiFonts flushOld false c)).video ↔
      DrawnInside s c.video ∧ (flushOld = true → Harmless s c.lastX c.lastY) ∧
        (AtBottom s c → c.x ≠ maxX s ∨ WholeColumns s) := by
  have sameLine : AtBottom s (consoleCur s asciiFonts flushOld false c) ↔ AtBottom s c := by
    unfold AtBottom
    rw [consoleCur_y]
  rw [drawnInside_consoleRoll, drawnInside_consoleCur, consoleCur_lastX, consoleCur_lastY, sameLine,
    harmless_right aligned full y_less]
  simp [and_assoc]

theorem harmless_rollFull (wide : 8 ≤ s.width.toNat) (aligned : Aligned c.x c.y) (full : maxX s ≤ c.x)
    (y_less : c.y < maxY s) :
    Harmless s (consoleRoll s asciiFonts (consoleCur s asciiFonts flushOld false c)).lastX
        (consoleRoll s asciiFonts (consoleCur s asciiFonts flushOld false c)).lastY ↔
      (AtBottom s c → WholeRows s) ∧ (¬ AtBottom s c → c.x ≠ maxX s ∨ WholeColumns s) := by
  have sameLine : AtBottom s (consoleCur s asciiFonts flushOld false c) ↔ AtBottom s c := by
    unfold AtBottom
    rw [consoleCur_y]
  rw [harmless_consoleRoll wide (by rwa [consoleCur_y]) (by rw [consoleCur_y]; exact aligned.y_whole),
    consoleCur_lastX, consoleCur_lastY, sameLine, harmless_right aligned full y_less]

theorem cell_rollFull (wide : 8 ≤ s.width.toNat) (y_less : c.y < maxY s) (y_whole : 16 ∣ c.y.toNat) :
    TextCell s (consoleRoll s asciiFonts (consoleCur s asciiFonts flushOld false c)).x
      (consoleRoll s asciiFonts (consoleCur s asciiFonts flushOld false c)).y := by
  apply cell_consoleRoll wide
  · rwa [consoleCur_y]
  · rwa [consoleCur_y]

end Parts

/-! ## Steps -/

/-- The next character draws nothing outside the text area.  At the bottom the place that is
remembered lies behind the last line, and at the end of a row behind the row. -/
def CarefulChar (s : Screen) (c : ConsoleState) : CharCase → Prop
  | .newline => Tidy s c ∧ (AtBottom s c → WholeRows s)
  | .tab => Tidy s c ∧ (maxX s ≤ nextTab c.x →
      (nextTab c.x ≠ maxX s ∨ WholeColumns s) ∧ (AtBottom s c → WholeRows s))
  | .backForce => Tidy s c
  | .backspace => c.x ≠ 0 → Tidy s c
  | .carriageReturn => Tidy s c
  | .plain => maxX s ≤ c.x + 8 → AtBottom s c → WholeColumns s

section Steps

variable {s : Screen} {asciiFonts : Nat → Nat → BitVec 8} {c : ConsoleState}

theorem newline_spec (wide : 8 ≤ s.width.toNat) (placed : Placed s c) :
    let c' := consoleCur s asciiFonts true true (consoleRoll s asciiFonts c)
    Placed s c' ∧ (DrawnInside s c'.video ↔
      DrawnInside s c.video ∧ Tidy s c ∧ (AtBottom s c → WholeRows s)) := by
  obtain ⟨-, y_less, -, y_whole⟩ := placed.cursor
  have cell : TextCell s (consoleRoll s asciiFonts c).x (consoleRoll s asciiFonts c).y :=
    cell_consoleRoll wide y_less y_whole
  refine ⟨placed_consoleCur cell, ?_⟩
  rw [drawnInside_consoleCur_of_cell cell, drawnInside_consoleRoll,
    harmless_consoleRoll wide y_less y_whole, placed.harmless_last wide]
  by_cases bottom : AtBottom s c
  · simp [bottom, and_assoc]
  · simp [bottom]

theorem aligned_nextTab (cell : TextCell s c.x c.y) : Aligned (nextTab c.x) c.y := by
  obtain ⟨x_whole, y_whole, -, y_small⟩ := cell.aligned
  have x_less := cell.x_less
  have narrow := s.width.isLt
  rw [BitVec.lt_def, toNat_maxX] at x_less
  have isRest : (c.x / 8 % 4).toNat = c.x.toNat / 8 % 4 := by
    rw [BitVec.toNat_umod, BitVec.toNat_udiv]
    rfl
  have isNext : (nextTab c.x).toNat = c.x.toNat + (4 - c.x.toNat / 8 % 4) * 8 := by
    rw [nextTab, ← isRest]
    generalize c.x / 8 % 4 = rest at isRest ⊢
    bv_omega
  refine ⟨?_, y_whole, ?_, y_small⟩
  · rw [isNext]
    omega
  · rw [isNext]
    omega

theorem tab_spec (wide : 8 ≤ s.width.toNat) (placed : Placed s c) :
    let c₁ : ConsoleState := { c with x := nextTab c.x }
    let c₂ := if maxX s ≤ c₁.x then consoleRoll s asciiFonts (consoleCur s asciiFonts true false c₁) else c₁
    let c' := consoleCur s asciiFonts true true c₂
    Placed s c' ∧ (DrawnInside s c'.video ↔ DrawnInside s c.video ∧ Tidy s c ∧
      (maxX s ≤ nextTab c.x →
        (nextTab c.x ≠ maxX s ∨ WholeColumns s) ∧ (AtBottom s c → WholeRows s))) := by
  intro c₁ c₂ c'
  have aligned := aligned_nextTab placed.cursor
  have y_less := placed.cursor.y_less
  by_cases full : maxX s ≤ c₁.x
  · have isRolled : c₂ = consoleRoll s asciiFonts (consoleCur s asciiFonts true false c₁) := if_pos full
    have cell : TextCell s c₂.x c₂.y := by
      rw [isRolled]
      exact cell_rollFull wide y_less aligned.y_whole
    refine ⟨placed_consoleCur cell, ?_⟩
    rw [drawnInside_consoleCur_of_cell cell, isRolled, drawnInside_rollFull aligned full y_less,
      harmless_rollFull wide aligned full y_less]
    have sameLine : AtBottom s c₁ ↔ AtBottom s c := Iff.rfl
    have old : Harmless s c₁.lastX c₁.lastY ↔ Tidy s c :=
      show Harmless s c.lastX c.lastY ↔ Tidy s c from placed.harmless_last wide
    have full' : maxX s ≤ nextTab c.x := full
    rw [sameLine, old]
    by_cases bottom : AtBottom s c
    · simp [bottom, full', c₁, and_assoc]
    · simp [bottom, full', c₁, and_assoc]
  · have isSame : c₂ = c₁ := if_neg full
    have cell : TextCell s c₂.x c₂.y := by
      rw [isSame]
      exact ⟨BitVec.not_le.1 full, y_less, aligned.x_whole, aligned.y_whole⟩
    refine ⟨placed_consoleCur cell, ?_⟩
    have old : Harmless s c₁.lastX c₁.lastY ↔ Tidy s c :=
      show Harmless s c.lastX c.lastY ↔ Tidy s c from placed.harmless_last wide
    have room : ¬ maxX s ≤ nextTab c.x := full
    rw [drawnInside_consoleCur_of_cell cell, isSame, old]
    simp [room, c₁]

/-- The cursor goes to another cell and the old one is erased. -/
theorem moved_spec {c' : ConsoleState} (wide : 8 ≤ s.width.toNat) (placed : Placed s c)
    (cell : TextCell s c'.x c'.y) (sameX : c'.lastX = c.lastX) (sameY : c'.lastY = c.lastY)
    (sameVideo : c'.video = c.video) : Placed s (consoleCur s asciiFonts true true c') ∧
      (DrawnInside s (consoleCur s asciiFonts true true c').video ↔ DrawnInside s c.video ∧ Tidy s c) := by
  refine ⟨placed_consoleCur cell, ?_⟩
  rw [drawnInside_consoleCur_of_cell cell, sameX, sameY, sameVideo, placed.harmless_last wide,
    imp_iff_right rfl]

theorem TextCell.left {x y : BitVec 32} (cell : TextCell s x y) (inside : x ≠ 0) : TextCell s (x - 8) y := by
  obtain ⟨x_less, y_less, x_whole, y_whole⟩ := cell
  have positive : x.toNat ≠ 0 := by
    intro zero
    exact inside (BitVec.eq_of_toNat_eq zero)
  have isLeft : (x - 8).toNat = x.toNat - 8 := by bv_omega
  refine ⟨?_, y_less, ?_, y_whole⟩
  · rw [BitVec.lt_def] at x_less ⊢
    omega
  · rw [isLeft]
    omega

theorem TextCell.start {x y : BitVec 32} (cell : TextCell s x y) : TextCell s 0 y := by
  refine ⟨?_, cell.y_less, by simp, cell.y_whole⟩
  have x_less := cell.x_less
  rw [BitVec.lt_def] at x_less ⊢
  change 0 < (maxX s).toNat
  omega

theorem cell_back (wide : 8 ≤ s.width.toNat) (cell : TextCell s c.x c.y) :
    TextCell s (c.back s).x (c.back s).y := by
  unfold ConsoleState.back
  by_cases inside : c.x ≠ 0
  · rw [if_pos inside]
    exact cell.left inside
  · rw [if_neg inside]
    by_cases below : c.y ≠ 0
    · have narrow := s.width.isLt
      have isMaxX := toNat_maxX (s := s)
      have isLast : (maxX s - 8).toNat = (maxX s).toNat - 8 := by bv_omega
      obtain ⟨-, y_less, -, y_whole⟩ := cell
      have positive : c.y.toNat ≠ 0 := by
        intro zero
        exact below (BitVec.eq_of_toNat_eq zero)
      have isUp : (c.y - 16).toNat = c.y.toNat - 16 := by bv_omega
      rw [if_pos below]
      refine ⟨?_, ?_, ?_, ?_⟩
      · rw [BitVec.lt_def, isLast]
        omega
      · rw [BitVec.lt_def, isUp]
        rw [BitVec.lt_def] at y_less
        omega
      · rw [isLast]
        omega
      · rw [isUp]
        omega
    · rw [if_neg below]
      exact cell

theorem back_last : (c.back s).lastX = c.lastX ∧ (c.back s).lastY = c.lastY ∧ (c.back s).video = c.video := by
  unfold ConsoleState.back
  split
  · exact ⟨rfl, rfl, rfl⟩
  · split
    · exact ⟨rfl, rfl, rfl⟩
    · exact ⟨rfl, rfl, rfl⟩

theorem plain_spec (wide : 8 ≤ s.width.toNat) (placed : Placed s c) (char : BitVec 8) :
    let c₁ : ConsoleState := { c.put s asciiFonts char c.x c.y with x := c.x + 8 }
    let c₂ := if maxX s ≤ c₁.x then consoleRoll s asciiFonts (consoleCur s asciiFonts false false c₁) else c₁
    let c' := consoleCur s asciiFonts false true c₂
    Placed s c' ∧ (DrawnInside s c'.video ↔ DrawnInside s c.video ∧
      (maxX s ≤ c.x + 8 → AtBottom s c → WholeColumns s)) := by
  intro c₁ c₂ c'
  obtain ⟨x_less, y_less, -, y_whole⟩ := placed.cursor
  obtain ⟨x_whole, -, x_small, y_small⟩ := placed.cursor.aligned
  have drawn : DrawnInside s c₁.video ↔ DrawnInside s c.video :=
    drawnInside_putChar.trans (and_iff_left placed.cursor.harmless)
  have isNext : (c.x + 8).toNat = c.x.toNat + 8 := by bv_omega
  have isMaxX := toNat_maxX (s := s)
  have aligned : Aligned c₁.x c₁.y := ⟨by change 8 ∣ (c.x + 8).toNat; omega, y_whole, by
    change (c.x + 8).toNat < 2 ^ 20
    have narrow := s.width.isLt
    rw [BitVec.lt_def] at x_less
    omega, y_small⟩
  by_cases full : maxX s ≤ c₁.x
  · have isRolled : c₂ = consoleRoll s asciiFonts (consoleCur s asciiFonts false false c₁) := if_pos full
    have cell : TextCell s c₂.x c₂.y := by
      rw [isRolled]
      exact cell_rollFull wide y_less y_whole
    have atEnd : c₁.x = maxX s := by
      change c.x + 8 = maxX s
      change maxX s ≤ c.x + 8 at full
      rw [BitVec.lt_def] at x_less
      rw [BitVec.le_def] at full
      rw [← BitVec.toNat_inj]
      omega
    refine ⟨placed_consoleCur cell, ?_⟩
    rw [drawnInside_consoleCur_of_cell cell, isRolled, drawnInside_rollFull aligned full y_less, drawn]
    have sameLine : AtBottom s c₁ ↔ AtBottom s c := Iff.rfl
    have full' : maxX s ≤ c.x + 8 := full
    rw [sameLine, atEnd, imp_iff_right full']
    simp
  · have isSame : c₂ = c₁ := if_neg full
    have cell : TextCell s c₂.x c₂.y := by
      rw [isSame]
      exact ⟨BitVec.not_le.1 full, y_less, aligned.x_whole, aligned.y_whole⟩
    have room : (maxX s ≤ c.x + 8 → AtBottom s c → WholeColumns s) ↔ True :=
      iff_true_intro fun above => absurd above full
    refine ⟨placed_consoleCur cell, ?_⟩
    rw [drawnInside_consoleCur_of_cell cell, isSame, drawn, room]
    simp

/-- One character. -/
theorem outChar_spec (asciiFonts : Nat → Nat → BitVec 8) (wide : 8 ≤ s.width.toNat) (placed : Placed s c) (char : BitVec 8) :
    Placed s (outChar s asciiFonts c char) ∧ (DrawnInside s (outChar s asciiFonts c char).video ↔
      DrawnInside s c.video ∧ CarefulChar s c (CharCase.of char)) := by
  unfold outChar
  cases CharCase.of char with
  | newline => exact newline_spec wide placed
  | tab => exact tab_spec wide placed
  | backForce =>
      obtain ⟨sameX, sameY, sameVideo⟩ := back_last (s := s) (c := c)
      exact moved_spec wide placed (cell_back wide placed.cursor) sameX sameY sameVideo
  | backspace =>
      by_cases inside : c.x ≠ 0
      · let next : ConsoleState := { c with x := c.x - 8 }
        have cell : TextCell s next.x next.y := placed.cursor.left inside
        have spec := @moved_spec s asciiFonts c next wide placed cell rfl rfl rfl
        simp only [CarefulChar]
        rw [if_pos inside, imp_iff_right inside]
        exact spec
      · simp only [CarefulChar]
        rw [if_neg inside]
        exact ⟨placed, by tauto⟩
  | carriageReturn => exact moved_spec wide placed placed.cursor.start rfl rfl rfl
  | plain => exact plain_spec wide placed char

end Steps

/-! ## Runs -/

section Runs

variable (s : Screen) (asciiFonts : Nat → Nat → BitVec 8)

/-- All characters of a string are careful, each where the ones before it have led. -/
def CarefulText (c : ConsoleState) : List (BitVec 8) → Prop
  | [] => True
  | char :: rest => CarefulChar s c (CharCase.of char) ∧ CarefulText (outChar s asciiFonts c char) rest

def CarefulCall (c : ConsoleState) : Call → Prop
  | .out string color background =>
      CarefulText s asciiFonts (c.recolor color background) (string.takeWhile (· ≠ 0))
  | .roll => AtBottom s c → Tidy s c
  | .cls => True

def CarefulRun (c : ConsoleState) : List Call → Prop
  | [] => True
  | call :: rest => CarefulCall s asciiFonts c call ∧ CarefulRun (c.call s asciiFonts call) rest

variable {s} {c : ConsoleState}

theorem text_spec (wide : 8 ≤ s.width.toNat) (placed : Placed s c) (text : List (BitVec 8)) :
    Placed s (text.foldl (outChar s asciiFonts) c) ∧
      (DrawnInside s (text.foldl (outChar s asciiFonts) c).video ↔
        DrawnInside s c.video ∧ CarefulText s asciiFonts c text) := by
  induction text generalizing c with
  | nil => exact ⟨placed, (and_iff_left trivial).symm⟩
  | cons char rest ih =>
      obtain ⟨placed', drawn⟩ := outChar_spec asciiFonts wide placed char
      obtain ⟨placed'', drawn'⟩ := ih placed'
      refine ⟨placed'', ?_⟩
      rw [List.foldl_cons, drawn', drawn, CarefulText, and_assoc]

theorem recolor_spec (color background : BitVec 32) (placed : Placed s c) :
    Placed s (c.recolor color background) ∧
      (DrawnInside s (c.recolor color background).video ↔ DrawnInside s c.video) := by
  unfold ConsoleState.recolor
  split
  · exact ⟨⟨placed.cursor, placed.last⟩, Iff.rfl⟩
  · exact ⟨placed, Iff.rfl⟩

theorem roll_spec (wide : 8 ≤ s.width.toNat) (placed : Placed s c) :
    Placed s (consoleRoll s asciiFonts c) ∧ (DrawnInside s (consoleRoll s asciiFonts c).video ↔
      DrawnInside s c.video ∧ (AtBottom s c → Tidy s c)) := by
  obtain ⟨-, y_less, -, y_whole⟩ := placed.cursor
  obtain ⟨-, below⟩ := bottom_iff y_less y_whole
  constructor
  · refine ⟨cell_consoleRoll wide y_less y_whole, ?_⟩
    by_cases bottom : AtBottom s c
    · rw [consoleRoll_bottom bottom]
      exact .inr ⟨rfl, below bottom⟩
    · rw [consoleRoll_above bottom]
      exact placed.last
  · rw [drawnInside_consoleRoll, placed.harmless_last wide]

/-- The upper left corner. -/
theorem cell_zero (wide : 8 ≤ s.width.toNat) (high : 16 ≤ s.height.toNat) : TextCell s 0 0 := by
  have zero : (0 : BitVec 32).toNat = 0 := rfl
  refine ⟨?_, ?_, by simp, by simp⟩
  · rw [BitVec.lt_def, toNat_maxX, zero]
    omega
  · rw [BitVec.lt_def, toNat_maxY, zero]
    omega

theorem call_spec (wide : 8 ≤ s.width.toNat) (high : 16 ≤ s.height.toNat) (placed : Placed s c)
    (call : Call) : Placed s (c.call s asciiFonts call) ∧
      (DrawnInside s (c.call s asciiFonts call).video ↔
        DrawnInside s c.video ∧ CarefulCall s asciiFonts c call) := by
  cases call with
  | out string color background =>
      obtain ⟨placed', drawn⟩ := recolor_spec color background placed
      obtain ⟨placed'', drawn'⟩ := text_spec asciiFonts wide placed'
        (string.takeWhile (· ≠ 0))
      rw [drawn] at drawn'
      exact ⟨placed'', drawn'⟩
  | roll => exact roll_spec asciiFonts wide placed
  | cls =>
      refine ⟨⟨cell_zero wide high, placed.last⟩, ?_⟩
      unfold DrawnInside ConsoleState.call consoleCls CarefulCall
      rw [and_true, putDwordPixels_drawn]

/-- A whole run. -/
theorem run_spec (wide : 8 ≤ s.width.toNat) (high : 16 ≤ s.height.toNat) (placed : Placed s c)
    (calls : List Call) : Placed s (c.run s asciiFonts calls) ∧
      (DrawnInside s (c.run s asciiFonts calls).video ↔
        DrawnInside s c.video ∧ CarefulRun s asciiFonts c calls) := by
  induction calls generalizing c with
  | nil => exact ⟨placed, (and_iff_left trivial).symm⟩
  | cons call rest ih =>
      obtain ⟨placed', drawn⟩ := call_spec asciiFonts wide high placed call
      obtain ⟨placed'', drawn'⟩ := ih placed'
      refine ⟨placed'', ?_⟩
      rw [CarefulRun, ← and_assoc, ← drawn]
      exact drawn'

theorem CarefulRun.take {asciiFonts : Nat → Nat → BitVec 8} {calls : List Call} (careful : CarefulRun s asciiFonts c calls) (n : Nat) :
    CarefulRun s asciiFonts c (calls.take n) := by
  induction calls generalizing c n with
  | nil =>
      rw [List.take_nil]
      exact careful
  | cons call rest ih =>
      cases n with
      | zero => exact trivial
      | succ n => exact ⟨careful.1, ih careful.2 n⟩

/-- Where the text area fills the screen every step is careful. -/
theorem carefulChar_of_whole (columns : WholeColumns s) (rows : WholeRows s) (char : CharCase) :
    CarefulChar s c char := by
  have tidy : Tidy s c := .inr rows
  cases char with
  | newline => exact ⟨tidy, fun _ => rows⟩
  | tab => exact ⟨tidy, fun _ => ⟨.inr columns, fun _ => rows⟩⟩
  | backForce => exact tidy
  | backspace => exact fun _ => tidy
  | carriageReturn => exact tidy
  | plain => exact fun _ _ => columns

theorem carefulText_of_whole (columns : WholeColumns s) (rows : WholeRows s) (text : List (BitVec 8)) :
    CarefulText s asciiFonts c text := by
  induction text generalizing c with
  | nil => exact trivial
  | cons char rest ih => exact ⟨carefulChar_of_whole columns rows _, ih⟩

/-- So nothing is drawn outside it there, whatever the console is asked to do. -/
theorem carefulRun_of_whole (columns : WholeColumns s) (rows : WholeRows s) (calls : List Call) :
    CarefulRun s asciiFonts c calls := by
  induction calls generalizing c with
  | nil => exact trivial
  | cons call rest ih =>
      refine ⟨?_, ih⟩
      cases call with
      | out string color background => exact carefulText_of_whole asciiFonts columns rows _
      | roll => exact fun _ => .inr rows
      | cls => exact trivial

/-- A run from the start of the console. -/
theorem run_initConsole (wide : 8 ≤ s.width.toNat) (high : 16 ≤ s.height.toNat)
    (bytes : Nat → BitVec 8) (calls : List Call) :
    Placed s ((initConsole s bytes).run s asciiFonts calls) ∧
      (DrawnInside s ((initConsole s bytes).run s asciiFonts calls).video ↔
        CarefulRun s asciiFonts (initConsole s bytes) calls) := by
  have corner := cell_zero wide high
  have placed : Placed s (initConsole s bytes) := ⟨corner, .inl corner⟩
  have nothing : DrawnInside s (initConsole s bytes).video := by
    intro q drawn
    unfold initConsole consoleCls at drawn
    rw [putDwordPixels_drawn] at drawn
    cases drawn
  obtain ⟨placed', drawn⟩ := run_spec asciiFonts wide high placed calls
  exact ⟨placed', drawn.trans (and_iff_right nothing)⟩

/-- **In every run the cursor stays on the grid of the text area, and nothing is drawn outside
it exactly when every step of the run is careful.** -/
theorem drawn_inside_iff (wide : 8 ≤ s.width.toNat) (high : 16 ≤ s.height.toNat)
    (bytes : Nat → BitVec 8) (calls : List Call) :
    (∀ n, TextCell s ((initConsole s bytes).run s asciiFonts (calls.take n)).x
          ((initConsole s bytes).run s asciiFonts (calls.take n)).y ∧
        DrawnInside s ((initConsole s bytes).run s asciiFonts (calls.take n)).video) ↔
      CarefulRun s asciiFonts (initConsole s bytes) calls := by
  constructor
  · intro inside
    obtain ⟨-, drawn⟩ := run_initConsole asciiFonts wide high bytes calls
    have whole := (inside calls.length).2
    rw [List.take_length] at whole
    exact drawn.1 whole
  · intro careful n
    obtain ⟨placed, drawn⟩ := run_initConsole asciiFonts wide high bytes (calls.take n)
    exact ⟨placed.cursor, drawn.2 (careful.take n)⟩

end Runs

/-- A letter on a screen of 800 by 600, where there are eight lines below the text area. -/
theorem drawn_inside_letter : DrawnInside ⟨800, 600⟩
    ((initConsole ⟨800, 600⟩ fun _ => 0).run ⟨800, 600⟩ (fun _ _ => 0) [.out [0x41] 0 0]).video := by
  have wide : 8 ≤ (⟨800, 600⟩ : Screen).width.toNat := by decide
  have high : 16 ≤ (⟨800, 600⟩ : Screen).height.toNat := by decide
  have room : ¬ maxX ⟨800, 600⟩ ≤ 0 + 8 := by decide
  exact ((drawn_inside_iff (fun _ _ => 0) wide high (fun _ => 0) [.out [0x41] 0 0]).2
    ⟨⟨fun full => absurd full room, trivial⟩, trivial⟩ 1).2

/-- A newline on a screen of 20 by 20: the blank cell behind the only line of text can be
seen in the last four lines of the screen. -/
theorem newline_draws_outside : ¬ DrawnInside ⟨20, 20⟩
    ((initConsole ⟨20, 20⟩ fun _ => 0).run ⟨20, 20⟩ (fun _ _ => 0) [.out [0x0a] 0 0]).video := by
  intro inside
  have wide : 8 ≤ (⟨20, 20⟩ : Screen).width.toNat := by decide
  have high : 16 ≤ (⟨20, 20⟩ : Screen).height.toNat := by decide
  have bottom : maxY ⟨20, 20⟩ ≤ 0 + 16 := by decide
  have part : ¬ WholeRows ⟨20, 20⟩ := by decide
  obtain ⟨-, drawn⟩ := run_initConsole (fun _ _ => 0) wide high (fun _ => 0) [.out [0x0a] 0 0]
  obtain ⟨⟨⟨-, careful⟩, -⟩, -⟩ := drawn.1 inside
  exact part (careful bottom)

end TestOs.Console
