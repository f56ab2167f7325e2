/-
# Devices.Interrupts -- the mask registers of the two interrupt controllers

`interrupt_enable` and `interrupt_disable` each keep a static copy of the mask
that the other one does not see, and only the low byte of it starts out masked.
`masks_follow_iff` says for which sequences of calls the registers nevertheless
show the last request for each line: none that reaches the second controller, and
on the first one never an enable while a line is masked again, nor a disable
while another line is on.
-/
import Mathlib.Data.List.Basic
import Mathlib.Data.BitVec
import Mathlib.Tactic.IntervalCases

namespace TestOs.Devices

set_option autoImplicit false

/-! ## interrupt.c -/

/-- `IRQ_0`. -/
def irq0 : BitVec 8 := 32

/-- The interrupt mask registers, and `ocw1` of the two functions. -/
structure Controllers where
  pic0Imr : BitVec 8
  pic1Imr : BitVec 8
  enableOcw1 : BitVec 16
  disableOcw1 : BitVec 16

namespace Controllers

/-- What `init_8259a` leaves; the static variables are as they are initialised. -/
def init8259a : Controllers := ⟨0xff, 0xff, 0xFF, 0xFF⟩

/-- The last statement of both functions. -/
def writeMask (s : Controllers) (vector : BitVec 8) (ocw1 : BitVec 16) : Controllers :=
  if vector < 8 then { s with pic0Imr := (ocw1 &&& 0xFF).setWidth 8 }
  else { s with pic1Imr := (ocw1 >>> 8).setWidth 8 }

def interruptEnable (s : Controllers) (vector : BitVec 8) : Controllers :=
  let vector := vector - irq0
  let ocw1 := s.enableOcw1 &&& (~~~((1 : BitVec 32) <<< vector.toNat)).setWidth 16
  { s with enableOcw1 := ocw1 }.writeMask vector ocw1

def interruptDisable (s : Controllers) (vector : BitVec 8) : Controllers :=
  let vector := vector - irq0
  let ocw1 := s.disableOcw1 ||| ((1 : BitVec 32) <<< vector.toNat).setWidth 16
  { s with disableOcw1 := ocw1 }.writeMask vector ocw1

/-- Bit `v - 32` of the two registers. -/
def masked (s : Controllers) (line : Nat) : Bool :=
  if line < 8 then s.pic0Imr.getLsbD line else s.pic1Imr.getLsbD (line - 8)

end Controllers

/-! ## Calls -/

/-- The vectors of the two controllers. -/
structure Irq where
  vector : BitVec 8
  first : 32 ≤ vector
  last : vector ≤ 47

def Irq.line (irq : Irq) : Nat := (irq.vector - irq0).toNat

inductive MaskCall where
  | enable (irq : Irq)
  | disable (irq : Irq)

namespace MaskCall

def irq : MaskCall → Irq
  | .enable irq | .disable irq => irq

def enables : MaskCall → Bool
  | .enable _ => true
  | .disable _ => false

def run (s : Controllers) : MaskCall → Controllers
  | .enable irq => s.interruptEnable irq.vector
  | .disable irq => s.interruptDisable irq.vector

end MaskCall

/-- The controllers after `init_8259a` and these calls. -/
def after (calls : List MaskCall) : Controllers := calls.foldl MaskCall.run .init8259a

/-- The last call on a line was `interrupt_enable`. -/
def lastEnables (calls : List MaskCall) (line : Nat) : Bool :=
  calls.foldl (fun on call => if call.irq.line = line then call.enables else on) false

/-- A line was enabled at some time. -/
def everEnabled (calls : List MaskCall) (line : Nat) : Bool :=
  calls.any fun call => call.enables && decide (call.irq.line = line)

/-- A line was disabled at some time. -/
def everDisabled (calls : List MaskCall) (line : Nat) : Bool :=
  calls.any fun call => !call.enables && decide (call.irq.line = line)

/-- Each line is unmasked exactly if it was enabled last. -/
def Follows (calls : List MaskCall) : Prop :=
  ∀ irq : Irq, (after calls).masked irq.line = !lastEnables calls irq.line

/-- The call masks or unmasks no other line. -/
def OnlyOwn (calls : List MaskCall) (call : MaskCall) : Prop :=
  ∀ irq : Irq, irq.line ≠ call.irq.line →
    (after (calls ++ [call])).masked irq.line = (after calls).masked irq.line

/-- The call is to the first controller; for an enable, no other line of it was
enabled and is masked again; for a disable, none is on. -/
def Agrees (calls : List MaskCall) (call : MaskCall) : Prop :=
  call.irq.line < 8 ∧ ∀ line < 8, line ≠ call.irq.line →
    if call.enables then everEnabled calls line → lastEnables calls line
    else lastEnables calls line = false

/-! ## The registers, bit by bit -/

section Bits

variable {calls : List MaskCall} {call : MaskCall} {line : Nat}

theorem Irq.line_eq (irq : Irq) : irq.line + 32 = irq.vector.toNat := by
  obtain ⟨vector, first, last⟩ := irq
  simp only [Irq.line, irq0]
  bv_omega

theorem Irq.line_lt (irq : Irq) : irq.line < 16 := by
  have last := irq.last
  have here := irq.line_eq
  bv_omega

/-- Each of the sixteen lines is that of a vector. -/
theorem Irq.exists_line (short : line < 16) : ∃ irq : Irq, irq.line = line := by
  refine ⟨⟨BitVec.ofNat 8 (line + 32), ?_, ?_⟩, ?_⟩
  · bv_omega
  · bv_omega
  · simp only [Irq.line, irq0]
    bv_omega

theorem bit_shift {line own : Nat} (short : line < 16) :
    ((1 : BitVec 32) <<< own).getLsbD line = decide (line = own) := by
  rw [BitVec.getLsbD_shiftLeft]
  by_cases same : line = own
  · subst same
    simp [show line < 32 by omega]
  · by_cases below : line < own
    · simp [same, below]
    · have apart : line - own ≠ 0 := by omega
      simp [same, show line < 32 by omega, apart]

/-- What `init_8259a` and `irq` leave in the low byte of a mask. -/
theorem bit_low (short : line < 16) : (0xFF : BitVec 16).getLsbD line = decide (line < 8) := by
  interval_cases line <;> rfl

theorem masked_writeMask (s : Controllers) (own : BitVec 8) (ocw1 : BitVec 16) (short : line < 16) :
    (s.writeMask own ocw1).masked line =
      if (line < 8 ↔ own.toNat < 8) then ocw1.getLsbD line else s.masked line := by
  have byte : own < 8 ↔ own.toNat < 8 := Iff.rfl
  unfold Controllers.writeMask Controllers.masked
  by_cases low : own.toNat < 8
  · rw [if_pos (byte.2 low)]
    by_cases here : line < 8
    · rw [if_pos here, if_pos (iff_of_true here low), BitVec.getLsbD_setWidth, BitVec.getLsbD_and,
        bit_low short]
      simp [here]
    · simp [here, low]
  · rw [if_neg (fun below => low (byte.1 below))]
    by_cases here : line < 8
    · simp [here, low]
    · simp [here, low, show line - 8 < 8 by omega, show 8 + (line - 8) = line by omega]

theorem after_snoc : after (calls ++ [call]) = call.run (after calls) :=
  List.foldl_concat ..

@[simp] theorem lastEnables_snoc : lastEnables (calls ++ [call]) line =
    if call.irq.line = line then call.enables else lastEnables calls line :=
  List.foldl_concat ..

@[simp] theorem everEnabled_snoc : everEnabled (calls ++ [call]) line =
    (everEnabled calls line || call.enables && decide (call.irq.line = line)) := by
  simp [everEnabled]

@[simp] theorem everDisabled_snoc : everDisabled (calls ++ [call]) line =
    (everDisabled calls line || !call.enables && decide (call.irq.line = line)) := by
  simp [everDisabled]

@[simp] theorem writeMask_enableOcw1 (s : Controllers) (own : BitVec 8) (ocw1 : BitVec 16) :
    (s.writeMask own ocw1).enableOcw1 = s.enableOcw1 := by
  unfold Controllers.writeMask
  split <;> rfl

@[simp] theorem writeMask_disableOcw1 (s : Controllers) (own : BitVec 8) (ocw1 : BitVec 16) :
    (s.writeMask own ocw1).disableOcw1 = s.disableOcw1 := by
  unfold Controllers.writeMask
  split <;> rfl

/-- The copy of `interrupt_enable` knows the lines that were ever enabled. -/
theorem enableOcw1_bit (calls : List MaskCall) (short : line < 16) :
    (after calls).enableOcw1.getLsbD line = (decide (line < 8) && !everEnabled calls line) := by
  induction calls using List.reverseRecOn with
  | nil => exact (bit_low short).trans (by simp [everEnabled])
  | append_singleton calls call ih =>
      rw [after_snoc, everEnabled_snoc]
      cases call with
      | enable irq =>
          simp only [MaskCall.run, Controllers.interruptEnable, writeMask_enableOcw1]
          rw [show (irq.vector - irq0).toNat = irq.line from rfl, BitVec.getLsbD_and, ih,
            BitVec.getLsbD_setWidth, BitVec.getLsbD_not, bit_shift short]
          by_cases own : irq.line = line
          · simp [own, MaskCall.irq, MaskCall.enables]
          · simp [own, Ne.symm own, short, show line < 32 by omega, MaskCall.irq, MaskCall.enables]
      | disable irq =>
          simp only [MaskCall.run, Controllers.interruptDisable, writeMask_enableOcw1]
          simp [ih, MaskCall.enables]

/-- The copy of `interrupt_disable` knows those that were ever disabled. -/
theorem disableOcw1_bit (calls : List MaskCall) (short : line < 16) :
    (after calls).disableOcw1.getLsbD line = (decide (line < 8) || everDisabled calls line) := by
  induction calls using List.reverseRecOn with
  | nil => exact (bit_low short).trans (by simp [everDisabled])
  | append_singleton calls call ih =>
      rw [after_snoc, everDisabled_snoc]
      cases call with
      | enable irq =>
          simp only [MaskCall.run, Controllers.interruptEnable, writeMask_disableOcw1]
          simp [ih, MaskCall.enables]
      | disable irq =>
          simp only [MaskCall.run, Controllers.interruptDisable, writeMask_disableOcw1]
          rw [show (irq.vector - irq0).toNat = irq.line from rfl, BitVec.getLsbD_or, ih,
            BitVec.getLsbD_setWidth, bit_shift short]
          by_cases own : irq.line = line
          · simp [own, short, MaskCall.irq, MaskCall.enables]
          · simp [own, Ne.symm own, MaskCall.irq, MaskCall.enables]

/-- The registers after a call: on its own controller what its copy knows. -/
theorem masked_snoc (calls : List MaskCall) (call : MaskCall) (short : line < 16) :
    (after (calls ++ [call])).masked line =
      if (line < 8 ↔ call.irq.line < 8) then
        if call.enables then decide (line < 8) && !everEnabled (calls ++ [call]) line
        else decide (line < 8) || everDisabled (calls ++ [call]) line
      else (after calls).masked line := by
  cases call with
  | enable irq =>
      have copy := enableOcw1_bit (calls ++ [.enable irq]) short
      rw [after_snoc] at copy ⊢
      simp only [MaskCall.run, Controllers.interruptEnable, writeMask_enableOcw1] at copy ⊢
      rw [masked_writeMask _ _ _ short, copy]
      rfl
  | disable irq =>
      have copy := disableOcw1_bit (calls ++ [.disable irq]) short
      rw [after_snoc] at copy ⊢
      simp only [MaskCall.run, Controllers.interruptDisable, writeMask_disableOcw1] at copy ⊢
      rw [masked_writeMask _ _ _ short, copy]
      rfl

theorem follows_iff : Follows calls ↔
    ∀ line < 16, (after calls).masked line = !lastEnables calls line := by
  constructor
  · intro follows line short
    obtain ⟨irq, rfl⟩ := Irq.exists_line short
    exact follows irq
  · exact fun follows irq => follows irq.line irq.line_lt

/-- A line that was never called is not enabled, and was never disabled. -/
theorem never_called (apart : ∀ call ∈ calls, call.irq.line ≠ line) :
    lastEnables calls line = false ∧ everDisabled calls line = false := by
  induction calls using List.reverseRecOn with
  | nil => exact ⟨rfl, rfl⟩
  | append_singleton calls call ih =>
      obtain ⟨last, ever⟩ := ih fun call member => apart call (List.mem_append_left _ member)
      have other := apart call (List.mem_append_right _ (List.mem_singleton_self _))
      simp [last, ever, other]

theorem everEnabled_of_last (last : lastEnables calls line = true) :
    everEnabled calls line = true := by
  induction calls using List.reverseRecOn with
  | nil => cases last
  | append_singleton calls call ih =>
      rw [lastEnables_snoc] at last
      rw [everEnabled_snoc]
      split at last
      · rename_i own
        simp [last, own]
      · simp [ih last]

/-- Behind calls to the first controller, the registers show the last requests
after another call exactly if it agrees with them. -/
theorem follows_snoc (low : ∀ call ∈ calls, call.irq.line < 8) (before : Follows calls) :
    Follows (calls ++ [call]) ↔ Agrees calls call := by
  rw [follows_iff] at before ⊢
  constructor
  · intro follows
    have first : call.irq.line < 8 := by
      -- a call to the second controller shows all its other lines wrong
      by_contra high
      obtain ⟨line, short, high', apart⟩ : ∃ line, line < 16 ∧ 8 ≤ line ∧ line ≠ call.irq.line := by
        by_cases eight : call.irq.line = 8
        · exact ⟨9, by decide, by decide, by omega⟩
        · exact ⟨8, by decide, by decide, Ne.symm eight⟩
      obtain ⟨last, ever⟩ : lastEnables calls line = false ∧ everDisabled calls line = false :=
        never_called fun call member => by
          have below := low call member
          omega
      have shown := follows line short
      rw [masked_snoc _ _ short, if_pos (by omega), lastEnables_snoc, if_neg (Ne.symm apart), last,
        everDisabled_snoc, ever] at shown
      cases enables : call.enables <;>
        simp [enables, Ne.symm apart, show ¬ line < 8 by omega] at shown
    refine ⟨first, fun line below apart => ?_⟩
    have shown := follows line (by omega)
    rw [masked_snoc _ _ (by omega), if_pos (by omega), lastEnables_snoc, if_neg (Ne.symm apart)] at shown
    split
    · rename_i enables
      rw [if_pos enables, everEnabled_snoc] at shown
      intro ever
      simpa [below, Ne.symm apart, ever] using shown
    · rename_i disables
      rw [if_neg disables] at shown
      simpa [below] using shown
  · rintro ⟨first, agrees⟩ line short
    rw [masked_snoc _ _ short, lastEnables_snoc]
    by_cases below : line < 8
    · rw [if_pos (by omega)]
      by_cases own : call.irq.line = line
      · cases enables : call.enables <;> simp [own, below, enables]
      · have agree := agrees line below (Ne.symm own)
        rw [if_neg own]
        split
        · rename_i enables
          rw [if_pos enables] at agree
          cases last : lastEnables calls line with
          | true => simp [everEnabled_of_last last]
          | false =>
              have never : everEnabled calls line = false := by
                rw [Bool.eq_false_iff]
                exact fun ever => by simp [agree ever] at last
              simp [below, never, own]
        · rename_i disables
          rw [if_neg disables] at agree
          simp [below, agree]
    · rw [if_neg (by omega), if_neg (by omega)]
      exact before line short

/-- Between two states that show the last requests only the called line changes. -/
theorem onlyOwn_of_follows (before : Follows calls) (next : Follows (calls ++ [call])) :
    OnlyOwn calls call := by
  intro irq apart
  rw [next irq, before irq, lastEnables_snoc, if_neg (Ne.symm apart)]

end Bits

/-- **The interrupt masks.**  The registers show, after each call, the last
request for each line, and no call changes the mask of another line, if and only
if every call agrees with the ones before it. -/
theorem masks_follow_iff (calls : List MaskCall) :
    (∀ earlier, earlier <+: calls → Follows earlier ∧
        ∀ call, earlier ++ [call] <+: calls → OnlyOwn earlier call) ↔
      ∀ earlier call, earlier ++ [call] <+: calls → Agrees earlier call := by
  have start : Follows [] := by
    rw [follows_iff]
    intro line short
    interval_cases line <;> rfl
  have shorter : ∀ {earlier : List MaskCall} {call}, earlier ++ [call] <+: calls → earlier <+: calls :=
    fun within => (List.prefix_append _ _).trans within
  constructor
  · intro follows
    have low : ∀ earlier, earlier <+: calls → ∀ call ∈ earlier, call.irq.line < 8 := by
      intro earlier
      induction earlier using List.reverseRecOn with
      | nil => exact fun _ _ none_ => absurd none_ List.not_mem_nil
      | append_singleton earlier call ih =>
          intro within call' member
          have below := ih (shorter within)
          rcases List.mem_append.1 member with early | last
          · exact below call' early
          · obtain rfl := List.mem_singleton.1 last
            exact ((follows_snoc below (follows _ (shorter within)).1).1 (follows _ within).1).1
    intro earlier call within
    exact (follows_snoc (low _ (shorter within)) (follows _ (shorter within)).1).1
      (follows _ within).1
  · intro agrees
    have follows : ∀ earlier, earlier <+: calls →
        Follows earlier ∧ ∀ call ∈ earlier, call.irq.line < 8 := by
      intro earlier
      induction earlier using List.reverseRecOn with
      | nil => exact fun _ => ⟨start, fun _ none_ => absurd none_ List.not_mem_nil⟩
      | append_singleton earlier call ih =>
          intro within
          obtain ⟨before, low⟩ := ih (shorter within)
          have agree := agrees earlier call within
          refine ⟨(follows_snoc low before).2 agree, fun call' member => ?_⟩
          rcases List.mem_append.1 member with early | last
          · exact low call' early
          · obtain rfl := List.mem_singleton.1 last
            exact agree.1
    refine fun earlier within => ⟨(follows earlier within).1, fun call next => ?_⟩
    exact onlyOwn_of_follows (follows earlier within).1 (follows _ next).1

/-- Vectors 32 and 33 are enabled and 33 is disabled: 32 is masked with it. -/
theorem disable_masks_other : ¬ ∀ calls : List MaskCall, ∀ earlier, earlier <+: calls →
    Follows earlier ∧ ∀ call, earlier ++ [call] <+: calls → OnlyOwn earlier call := by
  intro follows
  have shown := (follows [.enable ⟨32, by decide, by decide⟩, .enable ⟨33, by decide, by decide⟩,
    .disable ⟨33, by decide, by decide⟩] _ List.prefix_rfl).1 ⟨32, by decide, by decide⟩
  revert shown
  decide

end TestOs.Devices
