/-
# Console.Commands -- the commands with a number

`thread` and `interrupt` read a decimal number digit by digit into a variable of
the width that their operations take, 32 bits and 8 bits, and what does not fit
is lost: they act on the number modulo 2^32 and 2^8 (`commands_act_iff`).
-/
import TestOs.Console.Numerals

namespace TestOs.Console

open TestOs.Library

set_option autoImplicit false

/-- What the commands call. -/
inductive Operation
  | threadWake (tid : BitVec 32)
  | threadSuspend (tid : BitVec 32)
  | threadExit (tid : BitVec 32)
  | interruptEnable (vector : BitVec 8)
  | interruptDisable (vector : BitVec 8)
deriving DecidableEq

/-- What a command does: it prints a text, prints its list, or performs an operation. -/
inductive Response
  | printed (text : List Byte)
  | listed
  | performed (operation : Operation)
deriving DecidableEq

/-- `while (argv[2][i] != '\0')`: the number, unless there is another character. -/
def accumulate {width : Nat} : List Byte → BitVec width → Option (BitVec width)
  | [], number => some number
  | c :: text, number =>
      if c.slt (chr '0') ∨ (chr '9').slt c then none
      else accumulate text (number * 10 + (c - chr '0').setWidth width)

/-- A command with a number of a certain width: what is its own. -/
structure NumberCommand (width : Nat) where
  usage : List Byte
  /-- What the number is. -/
  what : List Byte
  /-- What is done for an option. -/
  operation : Byte → Option (BitVec width → Operation)

/-- The command with its arguments, of which there are `argc`. -/
def NumberCommand.run {width : Nat} (command : NumberCommand width) : List (List Byte) → Response
  | _ :: option :: others =>
      if option.getD 0 0 ≠ chr '-' ∨ option.getD 1 0 = 0 ∨ option.length > 2 then .printed command.usage
      else if option.getD 1 0 = chr 'l' then .listed
      else
        match others with
        | [] => .printed (bytes "no input " ++ command.what ++ bytes "\n")
        | text :: _ =>
            match accumulate text 0 with
            | none => .printed (bytes "unrecognized " ++ command.what ++ bytes " `" ++ text ++ bytes "'\n")
            | some number =>
                match command.operation (option.getD 1 0) with
                | some operation => .performed (operation number)
                | none => .printed (bytes "unrecognized option `" ++ option.drop 1 ++ bytes "'\n")
  | _ => .printed command.usage

/-- `switch (argv[1][1])` in `thread`. -/
def threadOperation (option : Byte) : Option (BitVec 32 → Operation) :=
  if option = chr 'w' then some .threadWake
  else if option = chr 's' then some .threadSuspend
  else if option = chr 'e' then some .threadExit
  else none

/-- `switch (argv[1][1])` in `interrupt`. -/
def interruptOperation (option : Byte) : Option (BitVec 8 → Operation) :=
  if option = chr 'e' then some .interruptEnable
  else if option = chr 'd' then some .interruptDisable
  else none

def thread : List (List Byte) → Response :=
  NumberCommand.run {
    usage := bytes "Usage: thread [options] [tid]\nOptions:\n" ++ bytes "  -w\tWake a thread\n" ++
      bytes "  -s\tSuspend a thread\n" ++ bytes "  -e\tExit a thread\n" ++
      bytes "  -l\tList all threads info (without tid)\n"
    what := bytes "tid"
    operation := threadOperation }

def interrupt : List (List Byte) → Response :=
  NumberCommand.run {
    usage := bytes "Usage: interrupt [options] [vector]\nOptions:\n" ++ bytes "  -e\tEnable an interrupt\n" ++
      bytes "  -d\tDisable an interrupt\n" ++ bytes "  -l\tList all interrupts info (without vector)\n"
    what := bytes "vector"
    operation := interruptOperation }

/-! ## What a command should do -/

def Digit (c : Byte) : Prop := chr '0' ≤ c ∧ c ≤ chr '9'

instance (c : Byte) : Decidable (Digit c) := inferInstanceAs (Decidable (_ ∧ _))

/-- The operation is performed on the number, and none if the number does not fit. -/
def ActsOn {width : Nat} (operation : BitVec width → Operation) (number : Nat) (response : Response) : Prop :=
  if number < 2 ^ width then response = .performed (operation (BitVec.ofNat width number))
  else ∀ other, response ≠ .performed other

section Numbers

variable {width : Nat} {text : List Byte} {number : Nat} {c : Byte}

theorem digit_value (width : Nat) (digit : Digit c) :
    ∃ d < 10, digitValue c = some d ∧ (c - chr '0').setWidth width = BitVec.ofNat width d := by
  have low : (chr '0').toNat ≤ c.toNat := BitVec.le_def.1 digit.1
  have high : c.toNat ≤ (chr '9').toNat := BitVec.le_def.1 digit.2
  have zero : (chr '0').toNat = 48 := rfl
  have nine : (chr '9').toNat = 57 := rfl
  refine ⟨c.toNat - 48, by omega, if_pos digit, ?_⟩
  have difference : (c - chr '0').toNat = c.toNat - 48 := by
    rw [BitVec.toNat_sub, zero]
    omega
  rw [← difference]
  exact (BitVec.ofNat_toNat ..).symm

theorem not_other (digit : Digit c) : ¬ (c.slt (chr '0') = true ∨ (chr '9').slt c = true) := by
  revert c
  decide

/-- **The loop keeps the number that the digits denote, modulo what the variable holds.** -/
theorem accumulate_eq (width : Nat) (digits : ∀ c ∈ text, Digit c) (before : Nat) :
    ∃ number, text.foldlM (appendDigit digitValue 10) before = some number ∧
      accumulate text (BitVec.ofNat width before) = some (BitVec.ofNat width number) := by
  induction text generalizing before with
  | nil => exact ⟨before, rfl, rfl⟩
  | cons c text ih =>
    have digit := digits c List.mem_cons_self
    obtain ⟨d, below, reads, is_⟩ := digit_value width digit
    obtain ⟨number, denotes, holds⟩ := ih (fun e mem => digits e (List.mem_cons_of_mem c mem)) (before * 10 + d)
    refine ⟨number, ?_, ?_⟩
    · rw [List.foldlM_cons, appendDigit, reads]
      simpa [below] using denotes
    · rw [accumulate, if_neg (not_other digit), is_, ← holds, BitVec.ofNat_add, BitVec.ofNat_mul]
      rfl

/-- What a command does with digits. -/
theorem run_digits {command : NumberCommand width} {operation : BitVec width → Operation} {option : Byte}
    (known : command.operation option = some operation) (notEnd : option ≠ 0) (notList : option ≠ chr 'l')
    (holds : accumulate text 0 = some (BitVec.ofNat width number)) (name : List Byte) (more : List (List Byte)) :
    command.run (name :: [chr '-', option] :: text :: more) = .performed (operation (BitVec.ofNat width number)) := by
  have wellFormed : ¬ (([chr '-', option].getD 0 0 ≠ chr '-') ∨ [chr '-', option].getD 1 0 = 0 ∨
      [chr '-', option].length > 2) := by
    simpa using notEnd
  have second : [chr '-', option].getD 1 0 = option := rfl
  rw [NumberCommand.run, if_neg wellFormed, second, if_neg notList, holds, known]

theorem actsOn_iff {operation : BitVec width → Operation} :
    ActsOn operation number (.performed (operation (BitVec.ofNat width number))) ↔ number < 2 ^ width := by
  unfold ActsOn
  split
  · next fits => exact iff_of_true rfl fits
  · next large => exact iff_of_false (fun never => never _ rfl) large

end Numbers

/-- **`thread` acts on the number typed exactly when it is below 2^32, and `interrupt` exactly when
it is below 2^8.** -/
theorem commands_act_iff (name text : List Byte) (more : List (List Byte)) (digits : ∀ c ∈ text, Digit c) :
    ∃ number, numeralValue digitValue 10 text = some number ∧
      (∀ option operation, threadOperation option = some operation →
        (ActsOn operation number (thread (name :: [chr '-', option] :: text :: more)) ↔ number < 2 ^ 32)) ∧
      ∀ option operation, interruptOperation option = some operation →
        (ActsOn operation number (interrupt (name :: [chr '-', option] :: text :: more)) ↔ number < 2 ^ 8) := by
  obtain ⟨number, denotes, tid⟩ := accumulate_eq 32 digits 0
  obtain ⟨number', denotes', vector⟩ := accumulate_eq 8 digits 0
  obtain rfl : number = number' := Option.some.inj (denotes.symm.trans denotes')
  refine ⟨number, denotes, fun option operation known => ?_, fun option operation known => ?_⟩
  · have notEnd : option ≠ 0 := by
      rintro rfl
      cases known
    have notList : option ≠ chr 'l' := by
      rintro rfl
      cases known
    rw [thread, run_digits known notEnd notList tid, actsOn_iff]
  · have notEnd : option ≠ 0 := by
      rintro rfl
      cases known
    have notList : option ≠ chr 'l' := by
      rintro rfl
      cases known
    rw [interrupt, run_digits known notEnd notList vector, actsOn_iff]

/-- `thread -e 12` exits thread 12. -/
theorem thread_exits :
    ActsOn .threadExit 12 (thread [bytes "thread", bytes "-e", bytes "12"]) := by
  obtain ⟨number, denotes, acts, -⟩ := commands_act_iff (bytes "thread") (bytes "12") [] (by decide)
  obtain rfl : 12 = number := Option.some.inj ((by decide : some 12 = _).trans denotes)
  exact (acts (chr 'e') .threadExit rfl).2 (by decide)

/-- `thread -e 4294967296` exits thread 0, and `interrupt -d 257` disables interrupt 1. -/
theorem number_wraps :
    thread [bytes "thread", bytes "-e", bytes "4294967296"] = .performed (.threadExit 0) ∧
      ¬ ActsOn .threadExit 4294967296 (thread [bytes "thread", bytes "-e", bytes "4294967296"]) ∧
      interrupt [bytes "interrupt", bytes "-d", bytes "257"] = .performed (.interruptDisable 1) := by
  have exits : thread [bytes "thread", bytes "-e", bytes "4294967296"] = .performed (.threadExit 0) := by
    decide +kernel
  refine ⟨exits, ?_, by decide +kernel⟩
  rw [exits]
  exact fun never => never _ rfl

end TestOs.Console
