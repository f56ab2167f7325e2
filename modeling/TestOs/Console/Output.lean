/-
# Console.Output -- the text console on the frame buffer

`console_out` draws characters and moves the cursor, `console_roll` moves it to
the next line and scrolls behind the last one, `console_cls` clears the screen.
`console_cur` draws the cursor as a blank cell in exchanged colours and keeps in
`last_x` and `last_y` where it was when it last ran, which is the cell that it
erases the next time.
-/
import TestOs.Graphics.Vbe

namespace TestOs.Console

open TestOs.Graphics

set_option autoImplicit false

/-- `console.x` and `console.y`, and the static variables of `console_cur`. -/
structure ConsoleState where
  x : BitVec 32
  y : BitVec 32
  lastX : BitVec 32
  lastY : BitVec 32
  video : Video

/-- `CONSOLE_FILL` -/
def consoleFill : BitVec 32 := 0x44883cff

/-- `CONSOLE_CLEAR` -/
def consoleClear : BitVec 32 := 0x1e2229ff

/-- `console.max_x` -/
def maxX (s : Screen) : BitVec 32 := s.columns / 8 * 8

/-- `console.max_y` -/
def maxY (s : Screen) : BitVec 32 := s.lines / 16 * 16

/-- What `console_out` distinguishes. -/
inductive CharCase where
  | newline
  | tab
  | backForce
  | backspace
  | carriageReturn
  | plain

/-- The labels of the `switch`. -/
def CharCase.of (char : BitVec 8) : CharCase :=
  if char = 0x0a then .newline
  else if char = 0x09 then .tab
  else if char = 0o27 then .backForce
  else if char = 0x08 then .backspace
  else if char = 0x0d then .carriageReturn
  else .plain

section Code

variable (s : Screen) (asciiFonts : Nat → Nat → BitVec 8)

/-- `put_char` -/
def ConsoleState.put (char : BitVec 8) (x y : BitVec 32) (c : ConsoleState) : ConsoleState :=
  { c with video := putChar s asciiFonts char x y c.video }

def consoleCur (flushOld flushNew : Bool) (c : ConsoleState) : ConsoleState :=
  let c := if flushOld then c.put s asciiFonts 0x20 c.lastX c.lastY else c
  let c := { c with lastX := c.x, lastY := c.y }
  if flushNew then
    { c with video := setColorInvert (putChar s asciiFonts 0x20 c.x c.y (setColorInvert c.video)) }
  else c

def consoleRoll (c : ConsoleState) : ConsoleState :=
  let c := { c with x := 0, y := c.y + 16 }
  if maxY s ≤ c.y then
    let c := consoleCur s asciiFonts true false c
    let video := sendDwordPixels s 0 16 (maxX s) (maxY s) 0 0 c.video
    let video := putDwordPixels s 0 (maxY s - 16) (maxX s) 16 (Color.ofWord consoleClear) video
    { c with y := c.y - 16, video := video }
  else c

def consoleCls (c : ConsoleState) : ConsoleState :=
  { c with
    x := 0
    y := 0
    video := putDwordPixels s 0 0 s.columns s.lines (Color.ofWord consoleClear) c.video }

/-- `console.x += (4 - (console.x / FONT_W) % 4) * FONT_W` -/
def nextTab (x : BitVec 32) : BitVec 32 := x + (4 - x / 8 % 4) * 8

/-- Where the forced-back code moves the cursor. -/
def ConsoleState.back (c : ConsoleState) : ConsoleState :=
  if c.x ≠ 0 then { c with x := c.x - 8 }
  else if c.y ≠ 0 then { c with x := maxX s - 8, y := c.y - 16 }
  else c

/-- One turn of the loop of `console_out`. -/
def outChar (c : ConsoleState) (char : BitVec 8) : ConsoleState :=
  match CharCase.of char with
  | .newline => consoleCur s asciiFonts true true (consoleRoll s asciiFonts c)
  | .tab =>
      let c := { c with x := nextTab c.x }
      let c := if maxX s ≤ c.x then consoleRoll s asciiFonts (consoleCur s asciiFonts true false c) else c
      consoleCur s asciiFonts true true c
  | .backForce => consoleCur s asciiFonts true true (c.back s)
  | .backspace => if c.x ≠ 0 then consoleCur s asciiFonts true true { c with x := c.x - 8 } else c
  | .carriageReturn => consoleCur s asciiFonts true true { c with x := 0 }
  | .plain =>
      let c := c.put s asciiFonts char c.x c.y
      let c := { c with x := c.x + 8 }
      let c := if maxX s ≤ c.x then consoleRoll s asciiFonts (consoleCur s asciiFonts false false c) else c
      consoleCur s asciiFonts false true c

/-- `set_color` where the two colours differ. -/
def ConsoleState.recolor (color background : BitVec 32) (c : ConsoleState) : ConsoleState :=
  if color ^^^ background ≠ 0 then { c with video := setColor color background c.video } else c

/-- A string ends before its first zero byte. -/
def consoleOut (string : List (BitVec 8)) (color background : BitVec 32) (c : ConsoleState) : ConsoleState :=
  (string.takeWhile (· ≠ 0)).foldl (outChar s asciiFonts) (c.recolor color background)

/-- `init_console` up to its version text, on a frame buffer with any contents.  The text is
put out by `console_out`. -/
def initConsole (bytes : Nat → BitVec 8) : ConsoleState :=
  let video : Video := ⟨bytes, ⟨⟨0, 0, 0⟩, ⟨0, 0, 0⟩⟩, [], []⟩
  consoleCls s ⟨0, 0, 0, 0, setColor consoleFill consoleClear video⟩

end Code

/-! ## What the parts do -/

section Fields

variable {s : Screen} {asciiFonts : Nat → Nat → BitVec 8} {flushOld flushNew : Bool} {c : ConsoleState}

@[simp] theorem consoleCur_x : (consoleCur s asciiFonts flushOld flushNew c).x = c.x := by
  cases flushOld <;> cases flushNew <;> rfl

@[simp] theorem consoleCur_y : (consoleCur s asciiFonts flushOld flushNew c).y = c.y := by
  cases flushOld <;> cases flushNew <;> rfl

@[simp] theorem consoleCur_lastX : (consoleCur s asciiFonts flushOld flushNew c).lastX = c.x := by
  cases flushOld <;> cases flushNew <;> rfl

@[simp] theorem consoleCur_lastY : (consoleCur s asciiFonts flushOld flushNew c).lastY = c.y := by
  cases flushOld <;> cases flushNew <;> rfl

/-- The cursor is in the last line of text, so the next line is behind the text area. -/
def AtBottom (s : Screen) (c : ConsoleState) : Prop := maxY s ≤ c.y + 16

instance : Decidable (AtBottom s c) := inferInstanceAs (Decidable (_ ≤ _))

theorem consoleRoll_above (above : ¬ AtBottom s c) :
    consoleRoll s asciiFonts c = { c with x := 0, y := c.y + 16 } := by
  unfold AtBottom at above
  simp only [consoleRoll]
  rw [if_neg above]

/-- The place that is remembered when the console scrolls lies behind the last line. -/
theorem consoleRoll_bottom (bottom : AtBottom s c) :
    consoleRoll s asciiFonts c = ⟨0, c.y, 0, c.y + 16,
      putDwordPixels s 0 (maxY s - 16) (maxX s) 16 (Color.ofWord consoleClear)
        (sendDwordPixels s 0 16 (maxX s) (maxY s) 0 0 (c.put s asciiFonts 0x20 c.lastX c.lastY).video)⟩ := by
  unfold AtBottom at bottom
  simp only [consoleRoll]
  rw [if_pos bottom, consoleCur_y, add_sub_cancel_right]
  rfl

end Fields

/-! ## Runs -/

/-- A call of the console by the rest of the system. -/
inductive Call where
  | out (string : List (BitVec 8)) (color background : BitVec 32)
  | roll
  | cls

section Runs

variable (s : Screen) (asciiFonts : Nat → Nat → BitVec 8)

def ConsoleState.call (c : ConsoleState) : Call → ConsoleState
  | .out string color background => consoleOut s asciiFonts string color background c
  | .roll => consoleRoll s asciiFonts c
  | .cls => consoleCls s c

def ConsoleState.run (c : ConsoleState) (calls : List Call) : ConsoleState := calls.foldl (ConsoleState.call s asciiFonts) c

end Runs

end TestOs.Console
