/-
# Console.Numerals -- the converters of text.c on unsigned numbers

Each converter fills a scratch array with the digits of a number, the last one
first, and copies it backwards.  The loops of text.c divide or shift
(`scratch10` and its siblings); what they collect are the digits of the number
in the base, and at most 32 of them, as many as the array takes.

Base 10 and base 16 write a digit for 0 and a terminator.  Base 2 has no digit
for 0, and base 8 neither that nor a terminator (`numerals_exact_iff`).
-/
import TestOs.Library.Positional
import TestOs.Console.Printk

namespace TestOs.Console

open TestOs.Library

set_option autoImplicit false

/-! ## The loops over the digits -/

/-- `while (number > 0)`: the characters in `tmp`, of which there are 32. -/
def scratch (digit : BitVec 32 → Byte) (shrink : BitVec 32 → BitVec 32) : Nat → BitVec 32 → List Byte
  | 0, _ => []
  | room + 1, number =>
      if number > 0 then digit number :: scratch digit shrink room (shrink number) else []

def scratch10 : BitVec 32 → List Byte :=
  scratch (fun number => digitChar (number % 10).toNat) (fun number => number / 10) 32

def scratch8 : BitVec 32 → List Byte :=
  scratch (fun number => digitChar (number % 8).toNat) (fun number => number >>> 3) 32

def scratch16 : BitVec 32 → List Byte :=
  scratch (fun number => hexChar (number % 16).toNat) (fun number => number >>> 4) 32

def scratch2 : BitVec 32 → List Byte :=
  scratch (fun number => if number % 2 ≠ 0 then chr '1' else chr '0') (fun number => number >>> 1) 32

section Scratch

variable {digit : BitVec 32 → Byte} {shrink : BitVec 32 → BitVec 32} {r : Radix}

/-- The array does not run out before the number does. -/
theorem scratch_digits (big : 1 < r.base)
    (digits : ∀ number : BitVec 32, digit number = r.digit (number.toNat % r.base))
    (shrinks : ∀ number : BitVec 32, (shrink number).toNat = number.toNat / r.base) {room : Nat}
    {number : BitVec 32} (fits : number.toNat < 2 ^ room) :
    scratch digit shrink room number = (Nat.digits r.base number.toNat).map r.digit := by
  induction room generalizing number with
  | zero =>
    have zero : number.toNat = 0 := by simpa using fits
    rw [scratch, zero, Nat.digits_zero]
    rfl
  | succ room ih =>
    rw [scratch]
    by_cases positive : number > 0
    · have nonzero : 0 < number.toNat := positive
      have half : number.toNat / r.base ≤ number.toNat / 2 := Nat.div_le_div_left big (by decide)
      rw [if_pos positive, ih (by rw [shrinks]; omega), Nat.digits_def' big nonzero, List.map_cons,
        digits, shrinks]
    · have zero : number.toNat = 0 := Nat.eq_zero_of_not_pos positive
      rw [if_neg positive, zero, Nat.digits_zero]
      rfl

/-- **What the loops collect are the digits, and the array has room for them.** -/
theorem scratch_fits (number : BitVec 32) :
    scratch10 number = (Nat.digits decimal.base number.toNat).map decimal.digit ∧
    scratch8 number = (Nat.digits octal.base number.toNat).map octal.digit ∧
    scratch16 number = (Nat.digits hexadecimal.base number.toNat).map hexadecimal.digit ∧
    scratch2 number = (Nat.digits binary.base number.toNat).map binary.digit := by
  have shifts (k : Nat) (n : BitVec 32) : (n >>> k).toNat = n.toNat / 2 ^ k := by
    rw [BitVec.toNat_ushiftRight, Nat.shiftRight_eq_div_pow]
  refine ⟨?_, ?_, ?_, ?_⟩
  · exact scratch_digits (r := decimal) (by decide) (fun _ => rfl) (fun _ => rfl) number.isLt
  · exact scratch_digits (r := octal) (by decide) (fun _ => rfl) (shifts 3) number.isLt
  · exact scratch_digits (r := hexadecimal) (by decide) (fun _ => rfl) (shifts 4) number.isLt
  · refine scratch_digits (r := binary) (by decide) (fun n => ?_) (shifts 1) number.isLt
    show (if n % 2 ≠ 0 then chr '1' else chr '0') = digitChar (n.toNat % 2)
    by_cases odd : n % 2 ≠ 0
    · have one : n.toNat % 2 = 1 := by
        have nonzero : (n % 2).toNat ≠ 0 := fun zero => odd (BitVec.eq_of_toNat_eq zero)
        rw [BitVec.toNat_umod] at nonzero
        exact Nat.mod_two_ne_zero.1 nonzero
      rw [if_pos odd, one]
      rfl
    · have zero : n.toNat % 2 = 0 := congrArg BitVec.toNat (not_not.1 odd)
      rw [if_neg odd, zero]
      rfl

end Scratch

/-! ## Numerals -/

/-- The value of a digit, up to the `f` of base 16. -/
def digitValue (c : Byte) : Option Nat :=
  if chr '0' ≤ c ∧ c ≤ chr '9' then some (c.toNat - '0'.toNat)
  else if chr 'a' ≤ c ∧ c ≤ chr 'f' then some (c.toNat - 87)
  else none

/-- `text` is the numeral of `number`: it has a digit, no leading zero, and reads back. -/
structure Numeral (base : Nat) (number : BitVec 32) (text : List Byte) : Prop where
  nonempty : text ≠ []
  noLeadingZero : text.head? = some (chr '0') → text = [chr '0']
  value : numeralValue digitValue base text = some number.toNat

/-- A converter, called on `number` without a sign and with `&dst[at_]`, leaves the numeral and a
terminator, and returns the length. -/
def WritesNumeral (base : Nat) (string : BitVec 32 → Bool → Nat → Cache → Nat × Cache)
    (number : BitVec 32) (at_ : Nat) (dst : Cache) : Prop :=
  ∃ text, Numeral base number text ∧
    (string number false at_ dst).1 = text.length ∧
    (∀ k (below : k < text.length), (string number false at_ dst).2.at_ (at_ + k) = text[k]) ∧
    (string number false at_ dst).2.at_ (at_ + text.length) = 0

section Converters

variable {r : Radix} {number : BitVec 32} {sign : Bool} {at_ : Nat} {dst : Cache}

/-- The text of an unsigned number. -/
theorem numberText_unsigned (r : Radix) (number : BitVec 32) :
    numberText r number false =
      if number = 0 then if r.zeroBefore || r.zeroBehind then [chr '0'] else []
      else ((Nat.digits r.base number.toNat).map r.digit).reverse := by
  simp [numberText]

/-- A number other than 0 has its numeral in every base whose digits read back. -/
theorem numberText_numeral (big : 1 < r.base) (reads : ∀ d < r.base, digitValue (r.digit d) = some d)
    (nonzero : number ≠ 0) : Numeral r.base number (numberText r number false) := by
  have positive : number.toNat ≠ 0 := fun zero => nonzero (BitVec.eq_of_toNat_eq zero)
  rw [numberText_unsigned, if_neg nonzero]
  obtain ⟨c, rest, isText, d, above, -, -, reads_c⟩ := head_digits big reads positive
  refine ⟨?_, fun zero => ?_, numeralValue_digits big reads _⟩
  · rw [isText]
    exact List.cons_ne_nil c rest
  · rw [isText, List.head?_cons] at zero
    obtain rfl := Option.some.inj zero
    have none_ : digitValue (chr '0') = some 0 := by decide
    rw [none_] at reads_c
    exact absurd (Option.some.inj reads_c) above.ne

theorem zero_numeral (base : Nat) (big : 1 < base) : Numeral base 0 [chr '0'] := by
  refine ⟨List.cons_ne_nil _ _, fun _ => rfl, ?_⟩
  have zero : digitValue (chr '0') = some 0 := by decide
  simp [numeralValue, appendDigit, zero, Nat.zero_lt_of_lt big]

/-- Nothing is no numeral. -/
theorem not_numeral_nil {base : Nat} : ¬ Numeral base number [] := fun numeral => numeral.nonempty rfl

theorem numberString_terminates (terminated : r.terminated = true) :
    (numberString r number sign at_ dst).2.at_ (at_ + (numberString r number sign at_ dst).1) = 0 := by
  unfold numberString
  simp only [terminated, if_true]
  exact Traced.put_at_self _ _ _

/-- What is written without a terminator leaves what is behind it. -/
theorem putList_at_behind {α : Type} {text : List α} {t : Traced Nat α} {i k : Nat}
    (behind : i + text.length ≤ k) : (t.putList i text).at_ k = t.at_ k := by
  induction text generalizing t i with
  | nil => rfl
  | cons v text ih =>
    rw [List.length_cons] at behind
    rw [Traced.putList, ih (by omega), Traced.put_at_of_ne _ _ _ _ (by omega)]

/-- `base8_string` leaves the byte behind the digits. -/
theorem base8String_behind : (base8String number false at_ dst).2.at_
    (at_ + (base8String number false at_ dst).1) =
      dst.at_ (at_ + (Nat.digits 8 number.toNat).length) := by
  have digits : base8String number false at_ dst =
      ((Nat.digits 8 number.toNat).length,
        dst.putList at_ ((Nat.digits 8 number.toNat).map digitChar).reverse) := by
    simp [base8String, numberString, octal, putIf]
  rw [digits]
  exact putList_at_behind (by rw [List.length_reverse, List.length_map])

/-- A converter leaves a numeral when its text is one and a terminator is behind it. -/
theorem writesNumeral_iff : WritesNumeral r.base (numberString r) number at_ dst ↔
    Numeral r.base number (numberText r number false) ∧
      (numberString r number false at_ dst).2.at_ (at_ + (numberString r number false at_ dst).1) = 0 := by
  obtain ⟨counted, wrote⟩ := numberString_wrote r number false at_ dst
  constructor
  · rintro ⟨text, numeral, length, chars, terminated⟩
    have same : text = numberText r number false := by
      refine List.ext_getElem (length.symm.trans counted) fun k below below' => ?_
      exact (chars k below).symm.trans (wrote.chars k below')
    subst same
    refine ⟨numeral, ?_⟩
    rw [length]
    exact terminated
  · rintro ⟨numeral, terminated⟩
    refine ⟨_, numeral, counted, wrote.chars, ?_⟩
    rw [← counted]
    exact terminated

end Converters

/-- **Base 10 and base 16 leave the numeral of every number; base 2 that of every number but
0; base 8 too, and only where a terminator was before.** -/
theorem numerals_exact_iff (number : BitVec 32) (at_ : Nat) (dst : Cache) :
    WritesNumeral 10 base10String number at_ dst ∧ WritesNumeral 16 base16String number at_ dst ∧
    (WritesNumeral 2 base2String number at_ dst ↔ number ≠ 0) ∧
    (WritesNumeral 8 base8String number at_ dst ↔
      number ≠ 0 ∧ dst.at_ (at_ + (Nat.digits 8 number.toNat).length) = 0) := by
  have decimals : ∀ d < 10, digitValue (digitChar d) = some d := by decide
  have hexDigits : ∀ d < 16, digitValue (hexChar d) = some d := by decide
  have withZero (r : Radix) (big : 1 < r.base)
      (reads : ∀ d < r.base, digitValue (r.digit d) = some d)
      (zero : (r.zeroBefore || r.zeroBehind) = true) : Numeral r.base number (numberText r number false) := by
    by_cases isZero : number = 0
    · subst isZero
      rw [numberText_unsigned, if_pos rfl, if_pos zero]
      exact zero_numeral _ big
    · exact numberText_numeral big reads isZero
  have withoutZero (r : Radix) (big : 1 < r.base)
      (reads : ∀ d < r.base, digitValue (r.digit d) = some d)
      (zero : (r.zeroBefore || r.zeroBehind) = false) :
      Numeral r.base number (numberText r number false) ↔ number ≠ 0 := by
    refine ⟨fun numeral isZero => ?_, numberText_numeral big reads⟩
    subst isZero
    rw [numberText_unsigned, if_pos rfl, zero] at numeral
    exact not_numeral_nil numeral
  refine ⟨?_, ?_, ?_, ?_⟩
  · exact (writesNumeral_iff (r := decimal)).2
      ⟨withZero decimal (by decide) decimals rfl, numberString_terminates rfl⟩
  · exact (writesNumeral_iff (r := hexadecimal)).2
      ⟨withZero hexadecimal (by decide) hexDigits rfl, numberString_terminates rfl⟩
  · have small : ∀ d < 2, digitValue (digitChar d) = some d := fun d below => decimals d (by omega)
    refine (writesNumeral_iff (r := binary)).trans ⟨fun writes => ?_, fun nonzero => ⟨?_, ?_⟩⟩
    · exact (withoutZero binary (by decide) small rfl).1 writes.1
    · exact (withoutZero binary (by decide) small rfl).2 nonzero
    · exact numberString_terminates rfl
  · have small : ∀ d < 8, digitValue (digitChar d) = some d := fun d below => decimals d (by omega)
    refine (writesNumeral_iff (r := octal)).trans (and_congr ?_ ?_)
    · exact withoutZero octal (by decide) small rfl
    · exact iff_of_eq (congrArg (· = 0) base8String_behind)

/-- `base2_string` of 0 leaves nothing but a terminator, and so no numeral. -/
theorem binary_zero_empty :
    (base2String 0 false 0 ⟨fun _ => 0, []⟩).1 = 0 ∧
      ¬ WritesNumeral 2 base2String 0 0 ⟨fun _ => 0, []⟩ := by
  refine ⟨rfl, fun writes => ?_⟩
  obtain ⟨text, numeral, length, -⟩ := writes
  exact numeral.nonempty (List.eq_nil_of_length_eq_zero length.symm)

end TestOs.Console
