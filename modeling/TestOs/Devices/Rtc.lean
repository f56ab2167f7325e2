/-
# Devices.Rtc -- rtc.c

The real-time clock goes on while its registers are read, and its update changes
them one by one.  `read_rtc` waits for the end of an update, reads the registers,
and repeats this until it has read the same twice.  `readRtc_snapshot` says what
that is worth: whatever the clock does between any two port operations, the result
is the time at one point during the call, if the call takes less than a minute.
`readRtc_returns` says that the loop ends once the clock leaves it time for three
readings.

A clock that counts hours from 1 to 12 is read 12 hours off in the hours after
midnight and after noon (`shownHour`): the code adds 12 to an hour that is marked
as after noon, also to 12, and never takes 12 away.
-/
import TestOs.Library.Snapshots
import TestOs.Library.Invariants
import TestOs.Devices.Clock

namespace TestOs.Devices

open TestOs.Library TestOs.Library.Prog

set_option autoImplicit false

/-! ## The clock -/

/-- `CMOS_CUR_SEC`, `CMOS_CUR_MIN`, `CMOS_CUR_HOUR`, `CMOS_MON_DAY`, `CMOS_CUR_MON`,
`CMOS_CUR_YEAR` and `CMOS_CUR_CEN`. -/
inductive Cmos where
  | second
  | minute
  | hour
  | day
  | month
  | year
  | century
  deriving DecidableEq, Repr

namespace Cmos

def all : List Cmos := [second, minute, hour, day, month, year, century]

def index : Cmos → BitVec 8
  | second => 0x0
  | minute => 0x2
  | hour => 0x4
  | day => 0x7
  | month => 0x8
  | year => 0x9
  | century => 0x32

end Cmos

/-- A clock, and what it does while the code runs. -/
structure RtcChip where
  /-- `CMOS_REG_A_SR` but for bit 7, which is up during an update. -/
  registerA : BitVec 8
  /-- `CMOS_REG_B_SR`: bit 2 is for binary numbers, bit 1 for hours from 0 to 23. -/
  registerB : BitVec 8
  /-- The dates of the days since some midnight. -/
  date : Nat → Date
  year_lt : ∀ day, (date day).year < 10000
  /-- The other registers. -/
  other : BitVec 8 → BitVec 8
  /-- What the clock does before port operation `n`. -/
  plan : Nat → List (Move Cmos)

/-- The second that the clock has reached, the register that is selected, and how many
port operations there have been. -/
structure Rtc where
  source : Source Cmos
  index : BitVec 8
  ops : Nat

namespace RtcChip

variable (c : RtcChip)

def binary : Prop := c.registerB &&& 0x04 ≠ 0
def hours24 : Prop := c.registerB &&& 0x02 ≠ 0

instance : Decidable c.binary := inferInstanceAs (Decidable (_ ≠ _))
instance : Decidable c.hours24 := inferInstanceAs (Decidable (_ ≠ _))

/-- A number in a register: binary, or a decimal digit in each half. -/
def digits (n : Nat) : BitVec 8 := if c.binary then .ofNat 8 n else .ofNat 8 (n / 10 * 16 + n % 10)

/-- An hour in its register. -/
def hourDigits (hour : Nat) : BitVec 8 :=
  if c.hours24 then c.digits hour
  else c.digits (if hour % 12 = 0 then 12 else hour % 12) ||| (if 12 ≤ hour then 0x80 else 0)

/-- What a register has in a second. -/
def value (register : Cmos) (second : Nat) : BitVec 8 :=
  match register with
  | .second => c.digits (second % 60)
  | .minute => c.digits (second / 60 % 60)
  | .hour => c.hourDigits (second / 3600 % 24)
  | .day => c.digits (c.date (second / 86400)).day
  | .month => c.digits (c.date (second / 86400)).month
  | .year => c.digits ((c.date (second / 86400)).year % 100)
  | .century => c.digits ((c.date (second / 86400)).year / 100)

/-- The register that is selected; bit 7 of the index is for the NMI. -/
def content (s : Rtc) : BitVec 8 :=
  let index := s.index &&& 0x7F
  if index = 0x0A then (c.registerA &&& 0x7F) ||| (if s.source.update.isSome then 0x80 else 0)
  else if index = 0x0B then c.registerB
  else
    match Cmos.all.find? fun register => register.index = index with
    | some register => c.value register (s.source.instant register)
    | none => c.other index

/-- The time until the next port operation. -/
def elapse (s : Rtc) : Rtc :=
  { s with source := s.source.moves (c.plan s.ops), ops := s.ops + 1 }

end RtcChip

/-! ## rtc.c -/

/-- What the code does. -/
abbrev RtcM (α : Type) := Prog Rtc Empty α

/-- `io_out8`, of which the code uses only port 0x70. -/
def ioOut8 (c : RtcChip) (port : BitVec 16) (data : BitVec 8) : RtcM Unit :=
  update fun s => if port = 0x70 then { c.elapse s with index := data } else c.elapse s

/-- `io_in8`, of which the code uses only port 0x71. -/
def ioIn8 (c : RtcChip) (port : BitVec 16) : RtcM (BitVec 8) := do
  update c.elapse
  let s ← state
  return if port = 0x71 then c.content s else 0xFF

def getUpdateInProgressFlag (c : RtcChip) : RtcM (BitVec 8) := do
  ioOut8 c 0x70 0x0A
  return (← ioIn8 c 0x71) &&& 0x80

def getRtcRegister (c : RtcChip) (reg : BitVec 8) : RtcM (BitVec 8) := do
  ioOut8 c 0x70 reg
  ioIn8 c 0x71

/-- `while (get_update_in_progress_flag()) {}`, at most so many times. -/
def awaitUpdate (c : RtcChip) : Nat → RtcM Unit
  | 0 => halt
  | fuel + 1 => do
      if (← getUpdateInProgressFlag c) ≠ 0 then awaitUpdate c fuel

/-- The fields of `time`, of which `year` holds a byte until the end, and `century`. -/
structure Registers where
  second : BitVec 8
  minute : BitVec 8
  hour : BitVec 8
  day : BitVec 8
  month : BitVec 8
  year : BitVec 8
  century : BitVec 8
  deriving DecidableEq, Repr

/-- One reading. -/
def readRegisters (c : RtcChip) (fuel : Nat) : RtcM Registers := do
  awaitUpdate c fuel
  let second ← getRtcRegister c (Cmos.index .second)
  let minute ← getRtcRegister c (Cmos.index .minute)
  let hour ← getRtcRegister c (Cmos.index .hour)
  let day ← getRtcRegister c (Cmos.index .day)
  let month ← getRtcRegister c (Cmos.index .month)
  let year ← getRtcRegister c (Cmos.index .year)
  let century ← getRtcRegister c (Cmos.index .century)
  return { second, minute, hour, day, month, year, century }

/-- The `do` loop, with the last reading, at most so many times. -/
def readAgain (c : RtcChip) (fuel : Nat) : Nat → Registers → RtcM Registers
  | 0, _ => halt
  | rounds + 1, last => do
      let time ← readRegisters c fuel
      if time ≠ last then readAgain c fuel rounds time else pure time

/-- `struct rtc_time`. -/
structure RtcTime where
  second : BitVec 8
  minute : BitVec 8
  hour : BitVec 8
  day : BitVec 8
  month : BitVec 8
  year : BitVec 32
  deriving DecidableEq, Repr

/-- `(x & 0x0F) + ((x / 16) * 10)`. -/
def fromBcd (x : BitVec 8) : BitVec 8 := (x &&& 0x0F) + x / 16 * 10

/-- What follows the loop. -/
def convert (registerB : BitVec 8) (time : Registers) : RtcTime :=
  let time :=
    if registerB &&& 0x04 = 0 then
      { second := fromBcd time.second
        minute := fromBcd time.minute
        hour := ((time.hour &&& 0x0F) + (time.hour &&& 0x70) / 16 * 10) ||| (time.hour &&& 0x80)
        day := fromBcd time.day
        month := fromBcd time.month
        year := fromBcd time.year
        century := fromBcd time.century }
    else time
  let hour :=
    if registerB &&& 0x02 = 0 ∧ time.hour &&& 0x80 ≠ 0 then ((time.hour &&& 0x7F) + 12) % 24
    else time.hour
  { second := time.second, minute := time.minute, hour, day := time.day, month := time.month
    year := time.year.setWidth 32 + time.century.setWidth 32 * 100 }

/-- `read_rtc`. -/
def readRtc (c : RtcChip) (fuel : Nat) : RtcM RtcTime := do
  let first ← readRegisters c fuel
  let time ← readAgain c fuel fuel first
  let registerB ← getRtcRegister c 0x0B
  return convert registerB time

/-- `get_timestamp`. -/
def getTimestamp (c : RtcChip) (fuel : Nat) : RtcM (BitVec 32) := do
  let time ← readRtc c fuel
  return toTimestamp time.year (time.month.setWidth 32) (time.day.setWidth 32)
    (time.hour.setWidth 32) (time.minute.setWidth 32) (time.second.setWidth 32)

/-! ## The numbers in the registers -/

namespace Registers

def get (time : Registers) : Cmos → BitVec 8
  | .second => time.second
  | .minute => time.minute
  | .hour => time.hour
  | .day => time.day
  | .month => time.month
  | .year => time.year
  | .century => time.century

theorem ext_get {time time' : Registers} (same : ∀ register, time.get register = time'.get register) :
    time = time' := by
  cases time
  cases time'
  simp only [Registers.mk.injEq]
  exact ⟨same .second, same .minute, same .hour, same .day, same .month, same .year, same .century⟩

end Registers

namespace RtcChip

variable (c : RtcChip)

/-- All registers in one second. -/
def reading (second : Nat) : Registers where
  second := c.value .second second
  minute := c.value .minute second
  hour := c.value .hour second
  day := c.value .day second
  month := c.value .month second
  year := c.value .year second
  century := c.value .century second

theorem reading_get (second : Nat) (register : Cmos) :
    (c.reading second).get register = c.value register second := by
  cases register <;> rfl

/-- The hour that `read_rtc` returns. -/
def shownHour (hour : Nat) : Nat :=
  if ¬ c.hours24 ∧ hour % 12 = 0 then (hour + 12) % 24 else hour

/-- What `read_rtc` returns when it has read the registers of one second. -/
def timeAt (second : Nat) : RtcTime where
  second := .ofNat 8 (second % 60)
  minute := .ofNat 8 (second / 60 % 60)
  hour := .ofNat 8 (c.shownHour (second / 3600 % 24))
  day := .ofNat 8 (c.date (second / 86400)).day
  month := .ofNat 8 (c.date (second / 86400)).month
  year := .ofNat 32 (c.date (second / 86400)).year

end RtcChip

/-- Two decimal digits. -/
theorem fromBcd_digits : ∀ n < 100, fromBcd (.ofNat 8 (n / 10 * 16 + n % 10)) = .ofNat 8 n := by
  decide

theorem ofNat_injective_of_lt : ∀ a < 60, ∀ b < 60, BitVec.ofNat 8 a = .ofNat 8 b → a = b := by
  intro a _ b _ same
  have := congrArg BitVec.toNat same
  simp only [BitVec.toNat_ofNat] at this
  omega

section Conversion

variable (c : RtcChip) (n : Nat)

theorem digits_of_binary (binary : c.binary) : c.digits n = .ofNat 8 n := by
  simp [RtcChip.digits, binary]

theorem fromBcd_of_decimal (decimal : ¬ c.binary) (small : n < 100) :
    fromBcd (c.digits n) = .ofNat 8 n := by
  simpa [RtcChip.digits, decimal] using fromBcd_digits n small

/-- The hour, out of its four encodings. -/
theorem convert_hour {hour : Nat} (inDay : hour < 24) (time : Registers)
    (read : time.hour = c.hourDigits hour) :
    (convert c.registerB time).hour = .ofNat 8 (c.shownHour hour) := by
  obtain ⟨_, _, hourByte, _, _, _, _⟩ := time
  change hourByte = _ at read
  subst read
  unfold convert RtcChip.shownHour RtcChip.hourDigits RtcChip.digits RtcChip.binary RtcChip.hours24
  by_cases decimal : c.registerB &&& 0x04 = 0
  · by_cases half : c.registerB &&& 0x02 = 0
    · simp only [decimal, half, if_true, ne_eq, not_true, not_false_eq_true, true_and, if_false]
      revert hour
      decide
    · simp only [decimal, half, if_true, ne_eq, not_true, not_false_eq_true, false_and, if_false]
      revert hour
      decide
  · by_cases half : c.registerB &&& 0x02 = 0
    · simp only [decimal, half, if_true, ne_eq, not_true, not_false_eq_true, true_and, if_false]
      revert hour
      decide
    · simp only [decimal, half, if_true, ne_eq, not_false_eq_true, not_true, false_and, if_false]

theorem year_of_halves {year : Nat} (small : year < 10000) :
    (BitVec.ofNat 8 (year % 100)).setWidth 32 + (BitVec.ofNat 8 (year / 100)).setWidth 32 * 100 =
      BitVec.ofNat 32 year := by
  have low : year % 100 % 256 = year % 100 := Nat.mod_eq_of_lt (by omega)
  have high : year / 100 % 256 = year / 100 := Nat.mod_eq_of_lt (by omega)
  have whole : year % 100 + year / 100 * 100 = year := Nat.mod_add_div' year 100
  apply BitVec.eq_of_toNat_eq
  simp [low, high, whole]

/-- **The numbers come out of the registers as they went in**, but for the hour. -/
theorem convert_reading (second : Nat) : convert c.registerB (c.reading second) = c.timeAt second := by
  have secondLt : second % 60 < 100 := by omega
  have minuteLt : second / 60 % 60 < 100 := by omega
  have dayLt : (c.date (second / 86400)).day < 100 :=
    (c.date (second / 86400)).day_le.trans_lt (by unfold monthLength; split_ifs <;> decide)
  have monthLt : (c.date (second / 86400)).month < 100 :=
    (c.date (second / 86400)).month_le.trans_lt (by decide)
  have yearLt := c.year_lt (second / 86400)
  have lowLt : (c.date (second / 86400)).year % 100 < 100 := Nat.mod_lt _ (by decide)
  have highLt : (c.date (second / 86400)).year / 100 < 100 := by omega
  have hour := convert_hour c (Nat.mod_lt (second / 3600) (by decide : 24 > 0)) (c.reading second) rfl
  unfold RtcChip.timeAt
  rw [← hour, ← year_of_halves yearLt]
  unfold convert
  by_cases decimal : c.binary
  · rw [if_neg (show ¬ c.registerB &&& 0x04 = 0 from decimal)]
    simp [RtcChip.reading, RtcChip.value, digits_of_binary c _ decimal]
  · rw [if_pos (show c.registerB &&& 0x04 = 0 from not_not.1 decimal)]
    simp [RtcChip.reading, RtcChip.value, fromBcd_of_decimal c _ decimal, secondLt, minuteLt, dayLt,
      monthLt, lowLt, highLt]

end Conversion

/-! ## One reading -/

section Reading

variable {c : RtcChip} {s t : Rtc} {register : Cmos}

/-- The clock behind `get_rtc_register`. -/
def RtcChip.selected (c : RtcChip) (s : Rtc) (reg : BitVec 8) : Rtc :=
  { c.elapse (c.elapse s) with index := reg }

theorem RtcChip.elapse_before (s : Rtc) : s.source.Before (c.elapse s).source :=
  Source.before_moves ..

theorem RtcChip.selected_before (s : Rtc) (reg : BitVec 8) :
    s.source.Before (c.selected s reg).source :=
  (c.elapse_before s).trans (c.elapse_before (c.elapse s))

@[simp] theorem RtcChip.selected_ops (s : Rtc) (reg : BitVec 8) : (c.selected s reg).ops = s.ops + 2 :=
  rfl

theorem wlp_getRtcRegister {reg : BitVec 8} {values : BitVec 8 → Rtc → Prop}
    {errors : Empty → Rtc → Prop} :
    wlp (getRtcRegister c reg) values errors s ↔
      values (c.content (c.selected s reg)) (c.selected s reg) := Iff.rfl

theorem wlp_getUpdateInProgressFlag {values : BitVec 8 → Rtc → Prop} {errors : Empty → Rtc → Prop} :
    wlp (getUpdateInProgressFlag c) values errors s ↔
      values (c.content (c.selected s 0x0A) &&& 0x80) (c.selected s 0x0A) := Iff.rfl

theorem content_selected (s : Rtc) (register : Cmos) :
    c.content (c.selected s register.index) =
      c.value register ((c.selected s register.index).source.instant register) := by
  have notA : ¬ register.index &&& 0x7F = 0x0A := by cases register <;> decide
  have notB : ¬ register.index &&& 0x7F = 0x0B := by cases register <;> decide
  have found : (Cmos.all.find? fun other => other.index = register.index &&& 0x7F) = some register := by
    cases register <;> decide
  unfold RtcChip.content
  change (if register.index &&& 0x7F = 0x0A then _ else _) = _
  rw [if_neg notA]
  change (if register.index &&& 0x7F = 0x0B then _ else _) = _
  rw [if_neg notB]
  change (match Cmos.all.find? fun other => other.index = register.index &&& 0x7F with
    | some register => _
    | none => _) = _
  rw [found]

/-- Bit 7 of status register A. -/
theorem flag_eq_zero_iff (s : Rtc) :
    c.content (c.selected s 0x0A) &&& 0x80 = 0 ↔ (c.selected s 0x0A).source.update = none := by
  have high : ∀ low : BitVec 8, (low &&& 0x7F ||| 0) &&& 0x80 = 0 ∧ ¬ (low &&& 0x7F ||| 0x80) &&& 0x80 = 0 := by
    decide
  have flag : c.content (c.selected s 0x0A) =
      (c.registerA &&& 0x7F) ||| (if (c.selected s 0x0A).source.update.isSome then 0x80 else 0) :=
    if_pos (by decide : (0x0A : BitVec 8) &&& 0x7F = 0x0A)
  rw [flag]
  cases (c.selected s 0x0A).source.update with
  | none => simpa using (high c.registerA).1
  | some changed => simpa using (high c.registerA).2

/-- The wait ends when no update is going on. -/
theorem awaitUpdate_quiet {errors : Empty → Rtc → Prop} (fuel : Nat) :
    wlp (awaitUpdate c fuel) (fun _ t => s.source.Before t.source ∧ t.source.update = none) errors s := by
  induction fuel generalizing s with
  | zero => exact wlp_halt
  | succ fuel ih =>
      have passed := c.selected_before s 0x0A
      rw [awaitUpdate, wlp_bind, wlp_getUpdateInProgressFlag]
      by_cases quiet : (c.selected s 0x0A).source.update = none
      · rw [if_neg (not_not.2 ((flag_eq_zero_iff s).2 quiet))]
        exact ⟨passed, quiet⟩
      · rw [if_pos (mt (flag_eq_zero_iff s).1 quiet)]
        exact wlp_mono ih (fun _ t after => ⟨passed.trans after.1, after.2⟩) (fun _ _ same => same)

/-- Each register of a reading has a value that it had at some time from `low` on. -/
def SeenFrom (c : RtcChip) (low : Nat) (t : Rtc) (time : Registers) : Prop :=
  ∀ register, ∃ second, low ≤ second ∧ second ≤ t.source.instant register ∧
    time.get register = c.value register second

/-- A reading begins at a quiet point, and sees nothing from before it. -/
theorem readRegisters_seen {errors : Empty → Rtc → Prop} (fuel : Nat) :
    wlp (readRegisters c fuel)
      (fun time t => ∃ q : Rtc, s.source.Before q.source ∧ q.source.update = none ∧
        q.source.Before t.source ∧ SeenFrom c q.source.now t time) errors s := by
  unfold readRegisters
  rw [wlp_bind]
  refine wlp_mono (awaitUpdate_quiet fuel) ?_ (fun _ _ same => same)
  rintro - q ⟨before, quiet⟩
  let s₁ := c.selected q (Cmos.index .second)
  let s₂ := c.selected s₁ (Cmos.index .minute)
  let s₃ := c.selected s₂ (Cmos.index .hour)
  let s₄ := c.selected s₃ (Cmos.index .day)
  let s₅ := c.selected s₄ (Cmos.index .month)
  let s₆ := c.selected s₅ (Cmos.index .year)
  let s₇ := c.selected s₆ (Cmos.index .century)
  change ∃ q : Rtc, s.source.Before q.source ∧ q.source.update = none ∧ q.source.Before s₇.source ∧
    SeenFrom c q.source.now s₇ _
  have to₇ : s₇.source.Before s₇.source := .refl _
  have to₆ : s₆.source.Before s₇.source := c.selected_before ..
  have to₅ : s₅.source.Before s₇.source := (c.selected_before ..).trans to₆
  have to₄ : s₄.source.Before s₇.source := (c.selected_before ..).trans to₅
  have to₃ : s₃.source.Before s₇.source := (c.selected_before ..).trans to₄
  have to₂ : s₂.source.Before s₇.source := (c.selected_before ..).trans to₃
  have to₁ : s₁.source.Before s₇.source := (c.selected_before ..).trans to₂
  have from₁ : q.source.Before s₁.source := c.selected_before ..
  have from₂ : q.source.Before s₂.source := from₁.trans (c.selected_before ..)
  have from₃ : q.source.Before s₃.source := from₂.trans (c.selected_before ..)
  have from₄ : q.source.Before s₄.source := from₃.trans (c.selected_before ..)
  have from₅ : q.source.Before s₅.source := from₄.trans (c.selected_before ..)
  have from₆ : q.source.Before s₆.source := from₅.trans (c.selected_before ..)
  have from₇ : q.source.Before s₇.source := from₆.trans (c.selected_before ..)
  have seen {r : Rtc} (register : Cmos) (after : q.source.Before (c.selected r register.index).source)
      (upTo : (c.selected r register.index).source.Before s₇.source) :
      ∃ second, q.source.now ≤ second ∧ second ≤ s₇.source.instant register ∧
        c.content (c.selected r register.index) = c.value register second :=
    ⟨_, (Source.now_le_instant _ _).trans (after.instant register), upTo.instant register,
      content_selected r register⟩
  refine ⟨q, before, quiet, from₇, fun register => ?_⟩
  cases register with
  | second => exact seen .second from₁ to₁
  | minute => exact seen .minute from₂ to₂
  | hour => exact seen .hour from₃ to₃
  | day => exact seen .day from₄ to₄
  | month => exact seen .month from₅ to₅
  | year => exact seen .year from₆ to₆
  | century => exact seen .century from₇ to₇

end Reading

/-! ## Two readings -/

section Snapshot

variable {c : RtcChip} {s t : Rtc}

/-- No register has a value again that it had less than a minute ago. -/
theorem value_lasting (c : RtcChip) (register : Cmos) : Lasting (c.value register) 60 := by
  have perMinute (f : Nat → BitVec 8) : Lasting (fun second => f (second / 60)) 60 :=
    lasting_div f (by decide)
  have hours (second : Nat) : second / 60 / 60 = second / 3600 := Nat.div_div_eq_div_mul ..
  have perDay (f : Date → BitVec 8) : Lasting (fun second => f (c.date (second / 86400))) 60 := by
    have days (second : Nat) : second / 60 / 1440 = second / 86400 := Nat.div_div_eq_div_mul ..
    simpa only [days] using perMinute fun minute => f (c.date (minute / 1440))
  cases register with
  | second =>
      refine lasting_mod (f := c.digits) fun a small b small' same => ?_
      by_cases binary : c.binary
      · rw [digits_of_binary c a binary, digits_of_binary c b binary] at same
        exact ofNat_injective_of_lt a small b small' same
      · have same := congrArg fromBcd same
        rw [fromBcd_of_decimal c a binary (by omega), fromBcd_of_decimal c b binary (by omega)] at same
        exact ofNat_injective_of_lt a small b small' same
  | minute => exact perMinute fun minute => c.digits (minute % 60)
  | hour =>
      have lasting := perMinute fun minute => c.hourDigits (minute / 60 % 24)
      simp only [hours] at lasting
      exact lasting
  | day => exact perDay fun date => c.digits date.day
  | month => exact perDay fun date => c.digits date.month
  | year => exact perDay fun date => c.digits (date.year % 100)
  | century => exact perDay fun date => c.digits (date.year / 100)

theorem SeenFrom.mono {low low' : Nat} {time : Registers} (seen : SeenFrom c low t time)
    (le : low' ≤ low) : SeenFrom c low' t time := fun register =>
  let ⟨second, after, before, same⟩ := seen register
  ⟨second, le.trans after, before, same⟩

/-- Two readings that are the same are of the quiet point between them. -/
theorem SeenFrom.snapshot {low : Nat} {q : Source Cmos} {time : Registers} (first : SeenFrom c low s time)
    (before : s.source.Before q) (quiet : q.update = none) (second : SeenFrom c q.now t time)
    (brief : t.source.now + 1 < low + 60) : time = c.reading q.now := by
  refine Registers.ext_get fun register => ?_
  obtain ⟨i, from_, upTo, had⟩ := first register
  obtain ⟨j, from', upTo', has⟩ := second register
  have early : i ≤ q.now :=
    (upTo.trans (before.instant register)).trans (Source.instant_of_quiet quiet register).le
  have late := upTo'.trans (Source.instant_le t.source register)
  rw [c.reading_get, had]
  exact (value_lasting c register i q.now j early from' (by omega) (had.symm.trans has)).symm

/-- The loop: the result is a reading of one second. -/
theorem readAgain_snapshot {errors : Empty → Rtc → Prop} (fuel : Nat) {rounds low : Nat} {last : Registers}
    (lower : low ≤ s.source.now) (seen : SeenFrom c low s last) :
    wlp (readAgain c fuel rounds last)
      (fun time t => ∃ second, low ≤ second ∧ second ≤ t.source.now ∧
        (t.source.now + 1 < low + 60 → time = c.reading second)) errors s := by
  induction rounds generalizing s last with
  | zero => exact wlp_halt
  | succ rounds ih =>
      rw [readAgain, wlp_bind]
      refine wlp_mono (readRegisters_seen fuel) ?_ (fun _ _ same => same)
      rintro time t ⟨q, before, quiet, after, seen'⟩
      have lower' : low ≤ q.source.now := lower.trans before.now
      rw [wlp_ite]
      refine ⟨fun _ => ih (lower'.trans after.now) (seen'.mono lower'), fun same => ?_⟩
      obtain rfl := not_not.1 same
      exact ⟨q.source.now, lower', after.now, seen.snapshot before quiet seen'⟩

/-- What `read_rtc` returns is of one second during the call, if it is short. -/
theorem readRtc_wlp (c : RtcChip) (fuel : Nat) {errors : Empty → Rtc → Prop} :
    wlp (readRtc c fuel)
      (fun time t => t.source.now + 1 < s.source.now + 60 →
        ∃ second, s.source.now ≤ second ∧ second ≤ t.source.now ∧ time = c.timeAt second) errors s := by
  unfold readRtc
  rw [wlp_bind]
  refine wlp_mono (readRegisters_seen fuel) ?_ (fun _ _ same => same)
  rintro first r ⟨q, before, -, after, seen⟩
  rw [wlp_bind]
  refine wlp_mono (readAgain_snapshot fuel (before.now.trans after.now) (seen.mono before.now)) ?_
    (fun _ _ same => same)
  rintro reading u ⟨second, from_, upTo, same⟩
  rw [wlp_bind, wlp_getRtcRegister, wlp_pure]
  intro brief
  have registerB : c.content (c.selected u 0x0B) = c.registerB :=
    (if_neg (by decide : ¬ (0x0B : BitVec 8) &&& 0x7F = 0x0A)).trans
      (if_pos (by decide : (0x0B : BitVec 8) &&& 0x7F = 0x0B))
  have later := (c.selected_before u 0x0B).now
  refine ⟨second, from_, upTo.trans later, ?_⟩
  rw [registerB, same (by omega), convert_reading]

/-- **The time that `read_rtc` returns is the time at one point during the call**, whatever the
clock does meanwhile, if the call takes less than a minute. -/
theorem readRtc_snapshot (c : RtcChip) (fuel : Nat) {time : RtcTime}
    (run : readRtc c fuel s = some (.ok time, t)) (brief : t.source.now + 1 < s.source.now + 60) :
    ∃ second, s.source.now ≤ second ∧ second ≤ t.source.now ∧ time = c.timeAt second := by
  have holds : wlp (readRtc c fuel) _ (fun _ _ => True) s := readRtc_wlp c fuel
  exact wlp_ok holds run brief

/-- A decimal 12-hour clock whose minute ends while it is read for the first time. -/
def minuteEnds : RtcChip where
  registerA := 0x26
  registerB := 0
  date _ := leapDay
  year_lt _ := by decide
  other _ := 0
  plan n := if n = 3 then [.start, .change .second] else if n = 20 then [.change .minute, .finish] else []

/-- 12:00:59 and 12:01:00. -/
def noonBefore : Rtc := ⟨⟨43259, none⟩, 0, 0⟩

def noonAfter : Rtc := ⟨⟨43260, none⟩, 0x0B, 54⟩

theorem readRtc_snapshot_minuteEnds :
    ∃ second, 43259 ≤ second ∧ second ≤ 43260 ∧ (⟨0, 1, 0, 29, 2, 2024⟩ : RtcTime) = minuteEnds.timeAt second :=
  readRtc_snapshot (s := noonBefore) (t := noonAfter) minuteEnds 4 rfl (by decide)

/-! ## The time stamp -/

/-- The time of day in a second of the clock. -/
def timeOfDay (second : Nat) : TimeOfDay where
  hour := second / 3600 % 24
  minute := second / 60 % 60
  second := second % 60
  hour_lt := Nat.mod_lt _ (by decide)
  minute_lt := Nat.mod_lt _ (by decide)
  second_lt := Nat.mod_lt _ (by decide)

/-- The seconds since 1970 in a second of the clock. -/
def RtcChip.epoch (c : RtcChip) (second : Nat) : Nat :=
  (c.date (second / 86400)).secondsSince 1970 (timeOfDay second)

theorem setWidth_ofNat {n : Nat} (small : n < 256) : (BitVec.ofNat 8 n).setWidth 32 = BitVec.ofNat 32 n := by
  apply BitVec.eq_of_toNat_eq
  simp only [BitVec.toNat_setWidth, BitVec.toNat_ofNat]
  omega

theorem RtcChip.shownHour_lt (c : RtcChip) {hour : Nat} (inDay : hour < 24) : c.shownHour hour < 24 := by
  unfold shownHour
  split <;> omega

/-- The time stamp of a reading of one second: that of the hour as it is read. -/
theorem toTimestamp_timeAt (c : RtcChip) {second : Nat} (from_ : 1970 ≤ (c.date (second / 86400)).year) :
    let time := c.timeAt second
    toTimestamp time.year (time.month.setWidth 32) (time.day.setWidth 32) (time.hour.setWidth 32)
        (time.minute.setWidth 32) (time.second.setWidth 32) =
      BitVec.ofNat 32 (c.epoch second) + BitVec.ofNat 32 (c.shownHour (second / 3600 % 24) * 3600) -
        BitVec.ofNat 32 (second / 3600 % 24 * 3600) := by
  have hourLt := c.shownHour_lt (Nat.mod_lt (second / 3600) (by decide : 24 > 0))
  have dayLt : (c.date (second / 86400)).day < 256 :=
    (c.date (second / 86400)).day_le.trans_lt (by unfold monthLength; split_ifs <;> decide)
  have monthLt : (c.date (second / 86400)).month < 256 :=
    (c.date (second / 86400)).month_le.trans_lt (by decide)
  have yearLt := c.year_lt (second / 86400)
  let shown : TimeOfDay := { timeOfDay second with hour := c.shownHour (second / 3600 % 24), hour_lt := hourLt }
  intro time
  have stamped : toTimestamp time.year (time.month.setWidth 32) (time.day.setWidth 32)
      (time.hour.setWidth 32) (time.minute.setWidth 32) (time.second.setWidth 32) =
        stamp (c.date (second / 86400)) shown := by
    simp only [time, RtcChip.timeAt, stamp, shown, timeOfDay]
    rw [setWidth_ofNat monthLt, setWidth_ofNat dayLt, setWidth_ofNat (by omega), setWidth_ofNat (by omega),
      setWidth_ofNat (by omega)]
  rw [stamped, stamp_eq from_ (by omega), eq_sub_iff_add_eq]
  simp only [ofNat_eq_cast]
  norm_cast
  congr 1
  simp only [RtcChip.epoch, Date.secondsSince, shown, timeOfDay]
  ring

/-- **So `get_timestamp` returns the seconds since 1970 at one point during the call**; but in a
clock with hours from 1 to 12, twelve hours more after midnight and twelve less after noon. -/
theorem getTimestamp_snapshot (c : RtcChip) (fuel : Nat) {result : BitVec 32}
    (run : getTimestamp c fuel s = some (.ok result, t)) (brief : t.source.now + 1 < s.source.now + 60)
    (from_ : ∀ day, 1970 ≤ (c.date day).year) :
    ∃ second, s.source.now ≤ second ∧ second ≤ t.source.now ∧
      (c.hours24 ∨ second / 3600 % 12 ≠ 0 → result = BitVec.ofNat 32 (c.epoch second)) ∧
      (¬ c.hours24 ∧ second / 3600 % 24 = 0 → result = BitVec.ofNat 32 (c.epoch second) + 43200) ∧
      (¬ c.hours24 ∧ second / 3600 % 24 = 12 → result = BitVec.ofNat 32 (c.epoch second) - 43200) := by
  have holds : wlp (getTimestamp c fuel)
      (fun result t => t.source.now + 1 < s.source.now + 60 →
        ∃ second, s.source.now ≤ second ∧ second ≤ t.source.now ∧
          result = BitVec.ofNat 32 (c.epoch second) +
            BitVec.ofNat 32 (c.shownHour (second / 3600 % 24) * 3600) -
              BitVec.ofNat 32 (second / 3600 % 24 * 3600)) (fun _ _ => True) s := by
    unfold getTimestamp
    rw [wlp_bind]
    refine wlp_mono (readRtc_wlp c fuel) ?_ (fun _ _ same => same)
    intro time t read brief
    obtain ⟨second, after, before, rfl⟩ := read brief
    exact ⟨second, after, before, toTimestamp_timeAt c (from_ _)⟩
  obtain ⟨second, after, before, rfl⟩ := wlp_ok holds run brief
  refine ⟨second, after, before, fun right => ?_, fun midnight => ?_, fun noon => ?_⟩
  · have same : c.shownHour (second / 3600 % 24) = second / 3600 % 24 := by
      refine if_neg fun ⟨half, twelfth⟩ => ?_
      rcases right with full | other
      · exact half full
      · omega
    rw [same, add_sub_cancel_right]
  · have twelve : c.shownHour 0 = 12 := if_pos ⟨midnight.1, rfl⟩
    rw [midnight.2, twelve]
    simp
  · have zero : c.shownHour 12 = 0 := if_pos ⟨noon.1, rfl⟩
    rw [noon.2, zero]
    simp

theorem getTimestamp_snapshot_minuteEnds :
    ∃ second, 43259 ≤ second ∧ second ≤ 43260 ∧
      (minuteEnds.hours24 ∨ second / 3600 % 12 ≠ 0 → 1709164860 = BitVec.ofNat 32 (minuteEnds.epoch second)) ∧
      (¬ minuteEnds.hours24 ∧ second / 3600 % 24 = 0 →
        1709164860 = BitVec.ofNat 32 (minuteEnds.epoch second) + 43200) ∧
      (¬ minuteEnds.hours24 ∧ second / 3600 % 24 = 12 →
        1709164860 = BitVec.ofNat 32 (minuteEnds.epoch second) - 43200) :=
  getTimestamp_snapshot (s := noonBefore) (t := noonAfter) minuteEnds 4 rfl (by decide)
    fun _ => (by decide : 1970 ≤ leapDay.year)

end Snapshot

/-! ## The loops end -/

/-- How far the clock is at port operation `n`, if it starts with `start` at operation 0. -/
def RtcChip.life (c : RtcChip) (start : Source Cmos) : Nat → Source Cmos
  | 0 => start
  | n + 1 => (c.life start n).moves (c.plan n)

/-- From operation `n` on, the clock does nothing for 48 operations: three readings. -/
structure RtcChip.CalmFrom (c : RtcChip) (start : Source Cmos) (n : Nat) : Prop where
  quiet : (c.life start n).update = none
  still : ∀ k < 48, c.plan (n + k) = []

section Returning

variable {c : RtcChip} {start : Source Cmos} {n : Nat} {s t : Rtc}

theorem RtcChip.CalmFrom.life (calm : c.CalmFrom start n) {k : Nat} (within : k ≤ 48) :
    c.life start (n + k) = c.life start n := by
  induction k with
  | zero => rfl
  | succ k ih =>
      rw [← Nat.add_assoc, RtcChip.life, calm.still k within, ih (by omega)]
      rfl

/-- The clock of a state is the one that has run so long. -/
def OnCourse (c : RtcChip) (start : Source Cmos) (s : Rtc) : Prop := s.source = c.life start s.ops

theorem OnCourse.selected (course : OnCourse c start s) (reg : BitVec 8) :
    OnCourse c start (c.selected s reg) := by
  unfold OnCourse at *
  simp only [RtcChip.selected, RtcChip.elapse, RtcChip.life, course]

/-- While it is calm, the clock is where it was at the beginning of the calm. -/
theorem OnCourse.calm (course : OnCourse c start s) (calm : c.CalmFrom start n) (after : n ≤ s.ops)
    (before : s.ops ≤ n + 48) : s.source = c.life start n := by
  have same := calm.life (k := s.ops - n) (by omega)
  rw [show n + (s.ops - n) = s.ops by omega] at same
  exact course.trans same

theorem wp_getRtcRegister {reg : BitVec 8} {values : BitVec 8 → Rtc → Prop}
    {errors : Empty → Rtc → Prop} :
    wp (getRtcRegister c reg) values errors s ↔
      values (c.content (c.selected s reg)) (c.selected s reg) := Iff.rfl

theorem wp_getUpdateInProgressFlag {values : BitVec 8 → Rtc → Prop} {errors : Empty → Rtc → Prop} :
    wp (getUpdateInProgressFlag c) values errors s ↔
      values (c.content (c.selected s 0x0A) &&& 0x80) (c.selected s 0x0A) := Iff.rfl

/-- The wait ends two operations after the calm has begun, or at once. -/
theorem awaitUpdate_returns (calm : c.CalmFrom start n) {fuel : Nat} (course : OnCourse c start s)
    (early : s.ops ≤ n + 46) (positive : 0 < fuel) (enough : n < s.ops + fuel) :
    wp (awaitUpdate c fuel)
      (fun _ t => OnCourse c start t ∧ s.ops + 2 ≤ t.ops ∧ t.ops ≤ max s.ops n + 2)
      (fun _ _ => False) s := by
  induction fuel generalizing s with
  | zero => exact absurd positive (Nat.lt_irrefl 0)
  | succ fuel ih =>
      have course' := course.selected 0x0A
      rw [awaitUpdate, wp_bind, wp_getUpdateInProgressFlag]
      by_cases quiet : (c.selected s 0x0A).source.update = none
      · rw [if_neg (not_not.2 ((flag_eq_zero_iff s).2 quiet))]
        exact ⟨course', le_rfl, by simp⟩
      · have before : s.ops + 2 < n := by
          by_contra late
          rw [course'.calm calm (by simp; omega) (by simp; omega)] at quiet
          exact quiet calm.quiet
        rw [if_pos (mt (flag_eq_zero_iff s).1 quiet)]
        refine wp_mono (ih course' (by simp; omega) (by omega) (by simp; omega)) ?_ (fun _ _ never => never)
        rintro - t ⟨course, after, upTo⟩
        simp only [RtcChip.selected_ops] at after upTo
        exact ⟨course, by omega, by omega⟩

/-- A reading takes the wait and fourteen operations more; in the calm it is of that second. -/
theorem readRegisters_returns (calm : c.CalmFrom start n) {fuel : Nat} (course : OnCourse c start s)
    (early : s.ops ≤ n + 32) (positive : 0 < fuel) (enough : n < s.ops + fuel) :
    wp (readRegisters c fuel)
      (fun time t => OnCourse c start t ∧ s.ops + 16 ≤ t.ops ∧ t.ops ≤ max s.ops n + 16 ∧
        (n ≤ s.ops → time = c.reading (c.life start n).now))
      (fun _ _ => False) s := by
  unfold readRegisters
  rw [wp_bind]
  refine wp_mono (awaitUpdate_returns calm course (by omega) positive enough) ?_
    (fun _ _ never => never)
  rintro - q ⟨course, after, upTo⟩
  simp only [wp_bind, wp_getRtcRegister, wp_pure, RtcChip.selected_ops]
  refine ⟨((((((course.selected _).selected _).selected _).selected _).selected _).selected _).selected _,
    by omega, by omega, fun inside => ?_⟩
  have read {r : Rtc} (course : OnCourse c start r) (late : n ≤ r.ops) (soon : r.ops ≤ n + 46)
      (register : Cmos) :
      c.content (c.selected r register.index) = c.value register (c.life start n).now := by
    have there := (course.selected register.index).calm calm (late.trans (Nat.le_add_right _ 2))
      (by simp; omega)
    rw [content_selected, there, Source.instant_of_quiet calm.quiet]
  refine Registers.ext_get fun register => ?_
  rw [c.reading_get]
  cases register with
  | second => exact read course (by omega) (by omega) .second
  | minute => exact read (course.selected _) (by simp; omega) (by simp; omega) .minute
  | hour => exact read ((course.selected _).selected _) (by simp; omega) (by simp; omega) .hour
  | day =>
      exact read (((course.selected _).selected _).selected _) (by simp; omega) (by simp; omega) .day
  | month =>
      exact read ((((course.selected _).selected _).selected _).selected _) (by simp; omega)
        (by simp; omega) .month
  | year =>
      exact read (((((course.selected _).selected _).selected _).selected _).selected _) (by simp; omega)
        (by simp; omega) .year
  | century =>
      exact read ((((((course.selected _).selected _).selected _).selected _).selected _).selected _)
        (by simp; omega) (by simp; omega) .century

/-- The loop ends when it has read twice in the calm. -/
theorem readAgain_returns (calm : c.CalmFrom start n) {fuel rounds : Nat} {last : Registers}
    (course : OnCourse c start s) (early : s.ops ≤ n + 16) (positive : 0 < fuel)
    (enough : n < s.ops + fuel) (two : 2 ≤ rounds) (rest : n + 2 ≤ s.ops + rounds) :
    wp (readAgain c fuel rounds last) (fun _ t => t.ops ≤ n + 48) (fun _ _ => False) s := by
  induction rounds generalizing s last with
  | zero => omega
  | succ rounds ih =>
      rw [readAgain, wp_bind]
      refine wp_mono (readRegisters_returns calm course (by omega) positive enough) ?_
        (fun _ _ never => never)
      rintro time t ⟨course, after, upTo, same⟩
      rw [wp_ite]
      refine ⟨fun _ => ?_, fun _ => by rw [wp_pure]; omega⟩
      by_cases begun : n ≤ s.ops
      · -- the next reading is the same
        obtain ⟨rounds, rfl⟩ : ∃ more, rounds = more + 1 := ⟨rounds - 1, by omega⟩
        rw [readAgain, wp_bind]
        refine wp_mono (readRegisters_returns calm course (by omega) positive (by omega)) ?_
          (fun _ _ never => never)
        rintro time' u ⟨-, -, upTo', same'⟩
        rw [if_neg (not_not.2 ((same' (by omega)).trans (same begun).symm)), wp_pure]
        omega
      · exact ih course (by omega) (by omega) (by omega) (by omega)

/-- **`read_rtc` returns once the clock leaves it time for three readings**: fifty operations after
the beginning of the calm at the latest. -/
theorem readRtc_returns (c : RtcChip) (calm : c.CalmFrom start n) {fuel : Nat}
    (course : OnCourse c start s) (ahead : s.ops ≤ n) (enough : n + 2 ≤ s.ops + fuel) :
    ∃ time t, readRtc c fuel s = some (.ok time, t) ∧ t.ops ≤ n + 50 := by
  have holds : wp (readRtc c fuel) (fun _ t => t.ops ≤ n + 50) (fun _ _ => False) s := by
    unfold readRtc
    rw [wp_bind]
    refine wp_mono (readRegisters_returns calm course (by omega) (by omega) (by omega)) ?_
      (fun _ _ never => never)
    rintro first r ⟨course, after, upTo, -⟩
    rw [wp_bind]
    refine wp_mono (readAgain_returns calm course (by omega) (by omega) (by omega) (by omega) (by omega))
      ?_ (fun _ _ never => never)
    intro time t soon
    rw [wp_bind, wp_getRtcRegister, wp_pure, RtcChip.selected_ops]
    omega
  exact wp_run holds

theorem readRtc_returns_minuteEnds :
    ∃ time t, readRtc minuteEnds 23 noonBefore = some (.ok time, t) ∧ t.ops ≤ 71 :=
  readRtc_returns (n := 21) minuteEnds
    ⟨rfl, fun k _ => (if_neg (by omega : ¬ 21 + k = 3)).trans (if_neg (by omega : ¬ 21 + k = 20))⟩
    (rfl : OnCourse minuteEnds noonBefore.source noonBefore) (by decide) (by decide)

end Returning

end TestOs.Devices
