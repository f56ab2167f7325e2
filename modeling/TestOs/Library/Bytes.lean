/-
# Library.Bytes -- byte memories, copies between them, little-endian words

A memory is a function from addresses to bytes.  `splice` is the one store:
`len` bytes of a source, put at an address of a destination.  Everything else
about copies is where an address lies with respect to the spliced range
(`splice_inside`, `splice_outside`), so the range conditions of a proof are
linear arithmetic.

`word` reads four bytes, least significant first, and `putWord` stores them.
-/
import Mathlib

namespace TestOs.Library

set_option autoImplicit false

/-- A byte memory. -/
abbrev Bytes := Nat → BitVec 8

/-- `len` bytes of `src`, from its start, copied over `dst` at `at_`. -/
def splice (dst : Bytes) (at_ : Nat) (src : Bytes) (len : Nat) : Bytes := fun i =>
  if at_ ≤ i ∧ i < at_ + len then src (i - at_) else dst i

/-- The memory as seen from an address on. -/
def slice (src : Bytes) (from_ : Nat) : Bytes := fun i => src (from_ + i)

section Splice

variable {dst src : Bytes} {at_ len i : Nat}

@[simp] theorem slice_apply (src : Bytes) (from_ i : Nat) : slice src from_ i = src (from_ + i) := rfl

theorem splice_inside (low : at_ ≤ i) (high : i < at_ + len) :
    splice dst at_ src len i = src (i - at_) := if_pos ⟨low, high⟩

theorem splice_outside (outside : i < at_ ∨ at_ + len ≤ i) : splice dst at_ src len i = dst i :=
  if_neg fun ⟨low, high⟩ => by omega

theorem splice_at {at_ len i : Nat} (inside : i < len) : splice dst at_ src len (at_ + i) = src i := by
  rw [splice_inside (by omega) (by omega), Nat.add_sub_cancel_left]

@[simp] theorem splice_zero : splice dst at_ src 0 = dst := by
  funext i
  exact splice_outside (by omega)

/-- Only the bytes that are copied matter. -/
theorem splice_congr {src' : Bytes} (same : ∀ i < len, src i = src' i) :
    splice dst at_ src len = splice dst at_ src' len := by
  funext i
  by_cases inside : at_ ≤ i ∧ i < at_ + len
  · rw [splice_inside inside.1 inside.2, splice_inside inside.1 inside.2]
    exact same _ (by omega)
  · rw [splice_outside (by omega), splice_outside (by omega)]

/-- Two copies one after the other are one copy of both lengths. -/
theorem splice_splice (len' : Nat) :
    splice (splice dst at_ src len) (at_ + len) (slice src len) len' =
      splice dst at_ src (len + len') := by
  funext i
  by_cases first : i < at_ + len
  · rw [splice_outside (.inl first)]
    by_cases low : at_ ≤ i
    · rw [splice_inside low first, splice_inside low (by omega)]
    · rw [splice_outside (.inl (by omega)), splice_outside (.inl (by omega))]
  · by_cases second : i < at_ + len + len'
    · rw [splice_inside (by omega) second, splice_inside (by omega) (by omega), slice_apply]
      congr 1
      omega
    · rw [splice_outside (.inr (by omega)), splice_outside (.inr (by omega)),
        splice_outside (.inr (by omega))]

@[simp] theorem slice_slice (first second : Nat) :
    slice (slice src first) second = slice src (first + second) := by
  funext i
  simp only [slice_apply, Nat.add_assoc]

@[simp] theorem slice_zero : slice src 0 = src := by
  funext i
  rw [slice_apply, Nat.zero_add]

/-- Reading a range, changing a part of it and writing it back writes the part. -/
theorem splice_through {whole offset : Nat} (fits : offset + len ≤ whole) :
    splice dst at_ (splice (slice dst at_) offset src len) whole =
      splice dst (at_ + offset) src len := by
  funext i
  by_cases inside : at_ + offset ≤ i ∧ i < at_ + offset + len
  · rw [splice_inside (by omega) (by omega), splice_inside (by omega) (by omega),
      splice_inside inside.1 inside.2]
    congr 1
    omega
  · have untouched : splice dst (at_ + offset) src len i = dst i := splice_outside (by omega)
    rw [untouched]
    by_cases within : at_ ≤ i ∧ i < at_ + whole
    · rw [splice_inside within.1 within.2, splice_outside (by omega), slice_apply]
      congr 1
      omega
    · exact splice_outside (by omega)

end Splice

/-! ## Words -/

/-- The 32-bit word at an address. -/
def word (b : Bytes) (i : Nat) : BitVec 32 := b (i + 3) ++ b (i + 2) ++ b (i + 1) ++ b i

/-- The bytes of a word. -/
def wordBytes (v : BitVec 32) : Bytes := fun i => (v >>> (8 * i)).setWidth 8

/-- A word stored at an address. -/
def putWord (b : Bytes) (i : Nat) (v : BitVec 32) : Bytes := splice b i (wordBytes v) 4

section Words

variable {b b' : Bytes} {i j : Nat} {v : BitVec 32}

theorem word_congr (same : ∀ k, i ≤ k → k < i + 4 → b k = b' k) : word b i = word b' i := by
  unfold word
  rw [same i (by omega) (by omega), same (i + 1) (by omega) (by omega),
    same (i + 2) (by omega) (by omega), same (i + 3) (by omega) (by omega)]

theorem word_slice (from_ : Nat) : word (slice b from_) i = word b (from_ + i) := rfl

@[simp] theorem word_putWord : word (putWord b i v) i = v := by
  unfold word putWord
  rw [splice_at (by omega), splice_at (by omega), splice_at (by omega),
    splice_inside (by omega) (by omega), Nat.sub_self]
  simp only [wordBytes]
  ext k hk
  simp only [BitVec.getElem_append, BitVec.getElem_setWidth, BitVec.getLsbD_ushiftRight]
  split
  · simp [BitVec.getLsbD_eq_getElem hk]
  · split
    · rw [BitVec.getLsbD_eq_getElem (by omega)]
      congr 1
      omega
    · split
      · rw [BitVec.getLsbD_eq_getElem (by omega)]
        congr 1
        omega
      · rw [BitVec.getLsbD_eq_getElem (by omega)]
        congr 1
        omega

theorem word_putWord_of_ne (apart : i + 4 ≤ j ∨ j + 4 ≤ i) : word (putWord b i v) j = word b j :=
  word_congr fun k low high => splice_outside (by omega)

end Words

end TestOs.Library
