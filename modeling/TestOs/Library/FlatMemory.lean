/-
# Library.FlatMemory -- a 32-bit address space of bytes

Addresses wrap, so where two accesses lie is a matter of differences: a word of
four bytes at `a` does not meet one at `b` when `a - b` and `b - a` are both at
least 4.  Bitmaps count their bits from a base address on, eight to a byte.
-/
import Mathlib

namespace TestOs.Library

set_option autoImplicit false

/-- The bytes of an address space. -/
abbrev Memory := BitVec 32 → BitVec 8

namespace Memory

variable {m : Memory} {a b : BitVec 32} {v : BitVec 32}

/-- The little-endian word at an address. -/
def load (m : Memory) (a : BitVec 32) : BitVec 32 := m (a + 3) ++ m (a + 2) ++ m (a + 1) ++ m a

def store (m : Memory) (a v : BitVec 32) : Memory := fun x =>
  if (x - a).toNat < 4 then (v >>> (8 * (x - a).toNat)).setWidth 8 else m x

theorem store_outside {x : BitVec 32} (outside : 4 ≤ (x - a).toNat) : m.store a v x = m x :=
  if_neg (by omega)

theorem store_byte (k : Nat) (inside : k < 4) :
    m.store a v (a + BitVec.ofNat 32 k) = (v >>> (8 * k)).setWidth 8 := by
  have back : (a + BitVec.ofNat 32 k - a).toNat = k := by
    bv_omega
  rw [store, back, if_pos inside]

theorem load_congr {m' : Memory}
    (same : ∀ k < 4, m' (a + BitVec.ofNat 32 k) = m (a + BitVec.ofNat 32 k)) :
    m'.load a = m.load a := by
  have zero : m' (a + 0) = m (a + 0) := same 0 (by omega)
  have one : m' (a + 1) = m (a + 1) := same 1 (by omega)
  have two : m' (a + 2) = m (a + 2) := same 2 (by omega)
  have three : m' (a + 3) = m (a + 3) := same 3 (by omega)
  rw [add_zero] at zero
  rw [load, load, zero, one, two, three]

@[simp] theorem load_store : (m.store a v).load a = v := by
  have zero : m.store a v (a + 0) = (v >>> (8 * 0)).setWidth 8 := store_byte 0 (by omega)
  have one : m.store a v (a + 1) = (v >>> (8 * 1)).setWidth 8 := store_byte 1 (by omega)
  have two : m.store a v (a + 2) = (v >>> (8 * 2)).setWidth 8 := store_byte 2 (by omega)
  have three : m.store a v (a + 3) = (v >>> (8 * 3)).setWidth 8 := store_byte 3 (by omega)
  rw [add_zero] at zero
  rw [load, zero, one, two, three]
  ext k hk
  simp only [BitVec.getElem_append, BitVec.getElem_setWidth, BitVec.getLsbD_ushiftRight]
  split
  · simp [BitVec.getLsbD_eq_getElem hk]
  · split
    · rw [BitVec.getLsbD_eq_getElem (by omega)]
      congr 1
      omega
    · split
      · rw [BitVec.getLsbD_eq_getElem (by omega)]
        congr 1
        omega
      · rw [BitVec.getLsbD_eq_getElem (by omega)]
        congr 1
        omega

theorem load_store_of_apart (above : 4 ≤ (b - a).toNat) (below : 4 ≤ (a - b).toNat) :
    (m.store a v).load b = m.load b := by
  refine load_congr fun k inside => store_outside ?_
  bv_omega

/-! ## Bitmaps -/

/-- Bit `p` of the bitmap at `base`. -/
def bit (m : Memory) (base : BitVec 32) (p : Nat) : Bool :=
  (m (base + BitVec.ofNat 32 (p / 8))).getLsbD (p % 8)

/-- The same memory with bit `p` set, or cleared. -/
def putBit (m : Memory) (base : BitVec 32) (p : Nat) (on : Bool) : Memory :=
  let a := base + BitVec.ofNat 32 (p / 8)
  let one := BitVec.twoPow 8 (p % 8)
  Function.update m a (if on then m a ||| one else m a &&& ~~~one)

theorem bit_congr {m' : Memory} {base : BitVec 32} {p : Nat}
    (same : m' (base + BitVec.ofNat 32 (p / 8)) = m (base + BitVec.ofNat 32 (p / 8))) :
    m'.bit base p = m.bit base p := by
  rw [bit, bit, same]

theorem putBit_outside {base x : BitVec 32} {p : Nat} {on : Bool}
    (outside : x ≠ base + BitVec.ofNat 32 (p / 8)) : m.putBit base p on x = m x :=
  Function.update_of_ne outside ..

/-- Bits of one bitmap, which is not larger than the address space. -/
theorem bit_putBit {base : BitVec 32} {p q : Nat} {on : Bool} (p_lt : p < 2 ^ 35) (q_lt : q < 2 ^ 35) :
    (m.putBit base p on).bit base q = if q = p then on else m.bit base q := by
  unfold bit
  by_cases byte : q / 8 = p / 8
  · have within : q % 8 < 8 := Nat.mod_lt _ (by omega)
    rw [putBit, byte, Function.update_self]
    by_cases same : q = p
    · subst same
      cases on <;> simp [within]
    · have other : q % 8 ≠ p % 8 := by omega
      rw [if_neg same]
      cases on <;> simp [within, other]
  · rw [putBit_outside, if_neg (by rintro rfl; exact byte rfl)]
    intro same
    apply byte
    bv_omega

end Memory

end TestOs.Library
