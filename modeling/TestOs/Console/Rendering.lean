/-
# Console.Rendering -- %d and %u

`printk` calls `base10_string` without the sign flag for `%d` and with it for
`%u`, and with the flag a number whose highest bit is set loses this bit instead
of being negated.  Below 2^31 both conversions say the same, and right; from
there on each is wrong, and so is the whole text (`printk_renders_iff`).
-/
import TestOs.Console.Numerals

namespace TestOs.Console

open TestOs.Library

set_option autoImplicit false

/-! ## Formats of literals, %d and %u -/

/-- A piece of a format; a literal is no `%` and does not end the string. -/
inductive Piece where
  | literal (ch : {ch : Byte // ch ≠ chr '%' ∧ ch ≠ 0})
  | signed
  | unsigned

/-- How a piece is written in a format. -/
def Piece.format : Piece → List Byte
  | .literal ch => [ch.1]
  | .signed => [chr '%', chr 'd']
  | .unsigned => [chr '%', chr 'u']

def formatOf (pieces : List Piece) : List Byte := pieces.flatMap Piece.format

/-- The conversions of a format. -/
def conversions (pieces : List Piece) : List Piece :=
  pieces.filter fun | .literal _ => false | _ => true

/-- The decimal numeral of a number. -/
def decimalText (n : Nat) : List Byte :=
  if n = 0 then [chr '0'] else ((Nat.digits 10 n).map digitChar).reverse

/-- The decimal value of an argument in two's complement. -/
def signedText (value : BitVec 32) : List Byte :=
  if value.toInt < 0 then chr '-' :: decimalText value.toInt.natAbs else decimalText value.toInt.natAbs

/-- What a format is meant to print. -/
def meant : List Piece → List (BitVec 32) → List Byte
  | [], _ => []
  | .literal ch :: pieces, args => ch.1 :: meant pieces args
  | .signed :: pieces, value :: args => signedText value ++ meant pieces args
  | .unsigned :: pieces, value :: args => decimalText value.toNat ++ meant pieces args
  | _ :: _, [] => []

/-- `console_out` gets a string: `text`, up to the terminator behind it. -/
structure Passes (after : Cache) (text : List Byte) : Prop where
  chars : ∀ k (below : k < text.length), after.at_ k = text[k]
  terminated : after.at_ text.length = 0

/-- `printk` prints what is meant and returns its length. -/
def Renders (pieces : List Piece) (args : List (BitVec 32)) (cache : Nat → Byte) : Prop :=
  ∃ after, printk (formatOf pieces) (args.map .int) cache = some ((meant pieces args).length, after) ∧
    Passes after (meant pieces args)

/-! ## What is printed -/

/-- What the format stands for in the code. -/
def printedText : List Piece → List (BitVec 32) → List Byte
  | [], _ => []
  | .literal ch :: pieces, args => ch.1 :: printedText pieces args
  | .signed :: pieces, value :: args => numberText decimal value false ++ printedText pieces args
  | .unsigned :: pieces, value :: args => numberText decimal value true ++ printedText pieces args
  | _ :: _, [] => []

section Printing

variable {pieces : List Piece} {args : List (BitVec 32)}

theorem text_literal {ch : Byte} {fmt : List Byte} {args : List Arg} (literal : ch ≠ chr '%') :
    text (ch :: fmt) args = (text fmt args).map (ch :: ·) := by
  cases fmt with
  | nil => simp [text, literal]
  | cons next fmt =>
    rw [text, if_neg literal]
    cases text (next :: fmt) args <;> rfl

theorem text_conversion {next : Byte} {fmt piece : List Byte} {args rest : List Arg}
    (stands : conversionText next args = some (piece, rest)) :
    text (chr '%' :: next :: fmt) args = (text fmt rest).map (piece ++ ·) := by
  rw [text, if_pos rfl, stands]
  show (text fmt rest).bind _ = _
  cases text fmt rest <;> rfl

/-- The formats of this module have all arguments they ask for. -/
theorem text_formatOf (matching : args.length = (conversions pieces).length) :
    text (formatOf pieces) (args.map .int) = some (printedText pieces args) := by
  induction pieces generalizing args with
  | nil => rfl
  | cons piece pieces ih =>
    cases piece with
    | literal ch =>
      show text (ch.1 :: formatOf pieces) _ = _
      rw [text_literal ch.2.1, ih matching]
      rfl
    | signed =>
      obtain ⟨value, args, rfl⟩ := List.exists_cons_of_length_eq_add_one matching
      show text (chr '%' :: chr 'd' :: formatOf pieces) _ = _
      rw [text_conversion rfl, ih (Nat.succ.inj matching)]
      rfl
    | unsigned =>
      obtain ⟨value, args, rfl⟩ := List.exists_cons_of_length_eq_add_one matching
      show text (chr '%' :: chr 'u' :: formatOf pieces) _ = _
      rw [text_conversion rfl, ih (Nat.succ.inj matching)]
      rfl

end Printing

/-! ## Where the conversions are right -/

section Values

variable {value : BitVec 32}

theorem numberText_decimal (value : BitVec 32) :
    numberText decimal value false = decimalText value.toNat := by
  rw [numberText_unsigned, decimalText]
  by_cases zero : value = 0
  · subst zero
    rfl
  · have nonzero : ¬ value.toNat = 0 := fun none_ => zero (BitVec.eq_of_toNat_eq none_)
    rw [if_neg zero, if_neg nonzero]
    rfl

/-- A decimal numeral does not begin with a sign. -/
theorem decimalText_head (n : Nat) : ∃ c rest, decimalText n = c :: rest ∧ c ≠ chr '-' := by
  have noSign : ∀ d < 10, digitChar d ≠ chr '-' := by decide
  unfold decimalText
  by_cases zero : n = 0
  · rw [if_pos zero]
    exact ⟨chr '0', [], rfl, by decide⟩
  · have reads : ∀ d < 10, digitValue (digitChar d) = some d := by decide
    obtain ⟨c, rest, isText, d, -, below, isDigit, -⟩ := head_digits (by decide) reads zero
    rw [if_neg zero]
    exact ⟨c, rest, isText, isDigit ▸ noSign d below⟩

theorem msb_iff : value.msb = true ↔ ¬ value.toNat < 2 ^ 31 := by
  rw [BitVec.msb_eq_decide, decide_eq_true_iff, not_lt]

theorem small_conversions (small : value.toNat < 2 ^ 31) :
    numberText decimal value false = signedText value ∧
      numberText decimal value true = decimalText value.toNat := by
  have positive : value.msb = false := by
    rw [← Bool.not_eq_true, msb_iff, not_not]
    exact small
  have same : value.toInt = value.toNat := BitVec.toInt_eq_toNat_of_msb positive
  refine ⟨?_, ?_⟩
  · rw [numberText_decimal, signedText, same, Int.natAbs_natCast, if_neg (by omega)]
  · rw [← numberText_decimal]
    simp [numberText, positive]

/-- From 2^31 on, a minus sign is missing in one and too much in the other. -/
theorem large_conversions (large : ¬ value.toNat < 2 ^ 31) (rest rest' : List Byte) :
    numberText decimal value false ++ rest ≠ signedText value ++ rest' ∧
      numberText decimal value true ++ rest ≠ decimalText value.toNat ++ rest' := by
  have negative : value.msb = true := msb_iff.2 large
  obtain ⟨c, behind, isText, noSign⟩ := decimalText_head value.toNat
  refine ⟨fun same => ?_, fun same => ?_⟩
  · have sign : value.toInt < 0 := by
      rw [BitVec.msb_eq_toInt, decide_eq_true_iff] at negative
      exact negative
    rw [numberText_decimal, isText, signedText, if_pos sign] at same
    exact noSign (List.cons.inj same).1
  · rw [isText] at same
    simp only [numberText, negative, Bool.and_self, if_true] at same
    exact noSign (List.cons.inj same).1.symm

end Values

section Formats

variable {pieces : List Piece} {args : List (BitVec 32)}

theorem printedText_eq_iff (matching : args.length = (conversions pieces).length) :
    printedText pieces args = meant pieces args ↔ ∀ value ∈ args, value.toNat < 2 ^ 31 := by
  induction pieces generalizing args with
  | nil =>
    obtain rfl : args = [] := List.eq_nil_of_length_eq_zero matching
    exact iff_of_true rfl fun _ inside => absurd inside List.not_mem_nil
  | cons piece pieces ih =>
    cases piece with
    | literal ch =>
      show ch.1 :: _ = ch.1 :: _ ↔ _
      rw [List.cons_inj_right, ih matching]
    | signed =>
      obtain ⟨value, args, rfl⟩ := List.exists_cons_of_length_eq_add_one matching
      rw [List.forall_mem_cons, ← ih (Nat.succ.inj matching)]
      show numberText decimal value false ++ _ = signedText value ++ _ ↔ _
      by_cases small : value.toNat < 2 ^ 31
      · rw [(small_conversions small).1, List.append_cancel_left_eq, and_iff_right small]
      · exact iff_of_false (large_conversions small _ _).1 fun both => small both.1
    | unsigned =>
      obtain ⟨value, args, rfl⟩ := List.exists_cons_of_length_eq_add_one matching
      rw [List.forall_mem_cons, ← ih (Nat.succ.inj matching)]
      show numberText decimal value true ++ _ = decimalText value.toNat ++ _ ↔ _
      by_cases small : value.toNat < 2 ^ 31
      · rw [(small_conversions small).2, List.append_cancel_left_eq, and_iff_right small]
      · exact iff_of_false (large_conversions small _ _).2 fun both => small both.1

theorem printk_terminates {fmt : List Byte} {args : List Arg} {cache : Nat → Byte} {length : Nat}
    {after : Cache} (prints : printk fmt args cache = some (length, after)) : after.at_ length = 0 := by
  unfold printk at prints
  obtain ⟨⟨length', middle⟩, -, isResult⟩ := Option.bind_eq_some_iff.1 prints
  obtain ⟨rfl, rfl⟩ := Prod.mk.inj (Option.some.inj isResult)
  exact Traced.put_at_self _ _ _

/-- `printk` prints its text, so it prints what is meant if that is its text. -/
theorem renders_iff_same (matching : args.length = (conversions pieces).length) (cache : Nat → Byte) :
    Renders pieces args cache ↔ printedText pieces args = meant pieces args := by
  obtain ⟨after, prints, -, wrote⟩ := printk_wrote cache (text_formatOf matching)
  have chars : ∀ k (below : k < (printedText pieces args).length),
      after.at_ k = (printedText pieces args)[k] := by
    intro k below
    have char := wrote.chars k below
    rwa [Nat.zero_add] at char
  constructor
  · rintro ⟨after', prints', passes⟩
    obtain ⟨length, rfl⟩ := Prod.mk.inj (Option.some.inj (prints.symm.trans prints'))
    refine List.ext_getElem length fun k below below' => ?_
    exact (chars k below).symm.trans (passes.chars k below')
  · intro same
    rw [same] at prints chars
    exact ⟨after, prints, chars, printk_terminates prints⟩

/-- **`printk` prints what is meant exactly when all arguments are below 2^31.** -/
theorem printk_renders_iff (pieces : List Piece) (args : List (BitVec 32))
    (matching : args.length = (conversions pieces).length) (cache : Nat → Byte) :
    Renders pieces args cache ↔ ∀ value ∈ args, value.toNat < 2 ^ 31 :=
  (renders_iff_same matching cache).trans (printedText_eq_iff matching)

/-- A year and a month, with a slash between them. -/
theorem year_and_month :
    Renders [.unsigned, .literal ⟨chr '/', by decide⟩, .signed] [2024, 2] fun _ => 0 := by
  have small : ∀ value ∈ [(2024 : BitVec 32), 2], value.toNat < 2 ^ 31 := by simp
  exact (printk_renders_iff [.unsigned, .literal ⟨chr '/', by decide⟩, .signed] [2024, 2] rfl _).2 small

/-- -1 is printed as 4294967295, and 2^31 without a digit. -/
theorem minus_one_unsigned :
    printedText [.signed] [-1] = bytes "4294967295" ∧ meant [.signed] [-1] = bytes "-1" ∧
      printedText [.unsigned] [0x80000000] = bytes "-" ∧ ¬ Renders [.signed] [-1] fun _ => 0 := by
  have is_ : printedText [.signed] [-1] = bytes "4294967295" := by decide +kernel
  have should : meant [.signed] [-1] = bytes "-1" := by decide +kernel
  refine ⟨is_, should, by decide +kernel, ?_⟩
  rw [renders_iff_same rfl, is_, should]
  decide

end Formats

end TestOs.Console
