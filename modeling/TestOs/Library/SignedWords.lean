/-
# Library.SignedWords -- arithmetic of signed words that does not overflow

A word of `n + 1` bits holds the numbers from -2^n to 2^n - 1.  As long as a
result is one of them, an operation on words is the operation on numbers, and a
comparison of words is one of numbers.
-/
import Mathlib

namespace TestOs.Library

set_option autoImplicit false

/-- The numbers of a signed word with `n` bits besides the sign. -/
def Signed (n : Nat) (z : Int) : Prop := -2 ^ n ≤ z ∧ z < 2 ^ n

section Words

variable {n : Nat} {a b : BitVec (n + 1)}

theorem bmod_signed {z : Int} (fits : Signed n z) : z.bmod (2 ^ (n + 1)) = z := by
  obtain ⟨low, high⟩ := fits
  apply Int.bmod_eq_of_le
  · push_cast [pow_succ]
    omega
  · push_cast [pow_succ]
    omega

theorem toInt_signed (a : BitVec (n + 1)) : Signed n a.toInt := by
  have low := BitVec.le_two_mul_toInt (x := a)
  have high := BitVec.two_mul_toInt_lt (x := a)
  rw [pow_succ] at low high
  constructor <;> omega

theorem toInt_ofInt_signed {z : Int} (fits : Signed n z) : (BitVec.ofInt (n + 1) z).toInt = z := by
  rw [BitVec.toInt_ofInt, bmod_signed fits]

theorem toInt_add_signed (fits : Signed n (a.toInt + b.toInt)) : (a + b).toInt = a.toInt + b.toInt := by
  rw [BitVec.toInt_add, bmod_signed fits]

theorem toInt_sub_signed (fits : Signed n (a.toInt - b.toInt)) : (a - b).toInt = a.toInt - b.toInt := by
  rw [BitVec.toInt_sub, bmod_signed fits]

theorem toInt_neg_signed (fits : Signed n (-a.toInt)) : (-a).toInt = -a.toInt := by
  rw [BitVec.toInt_neg, bmod_signed fits]

theorem toInt_mul_signed (fits : Signed n (a.toInt * b.toInt)) : (a * b).toInt = a.toInt * b.toInt := by
  rw [BitVec.toInt_mul, bmod_signed fits]

/-- A shift to the left by one. -/
theorem toInt_double (fits : Signed n (2 * a.toInt)) : (a <<< 1).toInt = 2 * a.toInt := by
  have double : a <<< 1 = a + a := by
    apply BitVec.eq_of_toNat_eq
    rw [BitVec.toNat_shiftLeft, BitVec.toNat_add, Nat.shiftLeft_eq, pow_one, mul_two]
  rw [two_mul] at fits
  rw [double, toInt_add_signed fits, two_mul]

end Words

end TestOs.Library
