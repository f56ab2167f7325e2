/-
# Library.Positional -- numerals in a base

A numeral is a list of characters, the highest digit first.  `numeralValue` reads
it: the value so far times the base, plus the next digit.  The digits of a number,
turned around, are the numeral that reads back as it (`numeralValue_digits`) and
has no leading zero (`head_digits`).
-/
import Mathlib

namespace TestOs.Library

set_option autoImplicit false

variable {α : Type} {value : α → Option Nat} {base : Nat} {digit : Nat → α}

/-- One more digit. -/
def appendDigit (value : α → Option Nat) (base n : Nat) (c : α) : Option Nat := do
  let d ← value c
  if d < base then some (n * base + d) else none

/-- The number that a numeral denotes. -/
def numeralValue (value : α → Option Nat) (base : Nat) (text : List α) : Option Nat :=
  text.foldlM (appendDigit value base) 0

@[simp] theorem numeralValue_nil : numeralValue value base [] = some 0 := rfl

theorem numeralValue_concat (text : List α) (c : α) : numeralValue value base (text ++ [c]) =
    (numeralValue value base text).bind fun n => appendDigit value base n c := by
  simp only [numeralValue, List.foldlM_append, List.foldlM_cons, List.foldlM_nil, bind_pure]
  rfl

/-- The digits of a number denote it. -/
theorem numeralValue_ofDigits (reads : ∀ d < base, value (digit d) = some d) {digits : List Nat}
    (small : ∀ d ∈ digits, d < base) :
    numeralValue value base (digits.map digit).reverse = some (Nat.ofDigits base digits) := by
  induction digits with
  | nil => rfl
  | cons d digits ih =>
    have below : d < base := small d List.mem_cons_self
    rw [List.map_cons, List.reverse_cons, numeralValue_concat,
      ih fun e inside => small e (List.mem_cons_of_mem d inside), Option.bind_some, appendDigit,
      reads d below]
    show (if d < base then some _ else none) = _
    rw [if_pos below, Nat.ofDigits_cons]
    congr 1
    ring

theorem numeralValue_digits (positive : 1 < base) (reads : ∀ d < base, value (digit d) = some d)
    (n : Nat) : numeralValue value base ((Nat.digits base n).map digit).reverse = some n := by
  rw [numeralValue_ofDigits reads fun d inside => Nat.digits_lt_base positive inside,
    Nat.ofDigits_digits]

/-- The first digit of a number is not 0. -/
theorem head_digits (positive : 1 < base) (reads : ∀ d < base, value (digit d) = some d) {n : Nat}
    (nonzero : n ≠ 0) : ∃ c rest, ((Nat.digits base n).map digit).reverse = c :: rest ∧
      ∃ d, 0 < d ∧ d < base ∧ c = digit d ∧ value c = some d := by
  have some_digit : Nat.digits base n ≠ [] := Nat.digits_ne_nil_iff_ne_zero.2 nonzero
  have last := Nat.getLast_digit_ne_zero base nonzero
  have below := Nat.digits_lt_base positive (List.getLast_mem some_digit)
  refine ⟨digit ((Nat.digits base n).getLast some_digit),
    ((Nat.digits base n).dropLast.map digit).reverse, ?_, _, Nat.pos_of_ne_zero last, below, rfl,
    reads _ below⟩
  rw [← List.reverse_concat, ← List.map_singleton, ← List.map_append, List.dropLast_concat_getLast]

end TestOs.Library
