/-
# Library.SparseFiles -- files of which some bytes are not specified

A `Sparse` file has a size, and for each byte a value or nothing: where a write
leaves a gap behind the old end, an implementation may show what it likes.  A byte
array shows a sparse file (`Sparse.Shown`) if it has the values that there are.
Writing and truncating keep that (`Shown.write`, `Shown.truncate`), whatever the
array has in the gaps, and a copy of a range is a read of the file (`Shown.reads`).

A gap need not stay unspecified: `write` takes what is known of it.
-/
import TestOs.Library.Bytes

namespace TestOs.Library

set_option autoImplicit false

/-- A file: its size, and the values of its bytes as far as they are specified. -/
structure Sparse where
  size : Nat
  byte : Nat → Option (BitVec 8)

namespace Sparse

/-- `len` bytes at `offset`; `gap` is what is known of the bytes behind the old end. -/
def write (file : Sparse) (gap : Nat → Option (BitVec 8)) (offset : Nat) (buf : Bytes) (len : Nat) :
    Sparse where
  size := max file.size (offset + len)
  byte j :=
    if offset ≤ j ∧ j < offset + len then some (buf (j - offset))
    else if j < file.size then file.byte j
    else gap j

/-- The first bytes of a file. -/
def truncate (file : Sparse) (newSize : Nat) : Sparse where
  size := min file.size newSize
  byte := file.byte

/-- The bytes of an array are those of the file, where these are specified. -/
def Shown (file : Sparse) (bytes : Bytes) : Prop :=
  ∀ j < file.size, ∀ v, file.byte j = some v → bytes j = v

/-- What a read of `len` bytes at `offset` makes of a buffer, and the length that it
returns: a range inside the file is copied, and of any other nothing. -/
def Reads (file : Sparse) (offset len : Nat) (buf : Bytes) (result : Nat × Bytes) : Prop :=
  if offset + len ≤ file.size then
    result.1 = len ∧ (∀ k < len, ∀ v, file.byte (offset + k) = some v → result.2 k = v) ∧
      ∀ k ≥ len, result.2 k = buf k
  else result = (0, buf)

variable {file : Sparse} {gap : Nat → Option (BitVec 8)} {before after buf : Bytes}
  {offset len newSize j : Nat}

theorem write_inside (low : offset ≤ j) (high : j < offset + len) :
    (file.write gap offset buf len).byte j = some (buf (j - offset)) := if_pos ⟨low, high⟩

/-- A write leaves the bytes in front of the old end that are not in its range. -/
theorem write_outside (outside : j < offset ∨ offset + len ≤ j) (below : j < file.size) :
    (file.write gap offset buf len).byte j = file.byte j := by
  unfold write
  dsimp only
  rw [if_neg (by omega), if_pos below]

theorem Shown.write (shown : file.Shown before)
    (range : ∀ i < len, after (offset + i) = buf i)
    (kept : ∀ j < file.size, j < offset ∨ offset + len ≤ j → after j = before j)
    (behind : ∀ j, file.size ≤ j → j < offset → ∀ v, gap j = some v → after j = v) :
    (file.write gap offset buf len).Shown after := by
  intro j below v value
  have below : j < max file.size (offset + len) := below
  by_cases inside : offset ≤ j ∧ j < offset + len
  · rw [write_inside inside.1 inside.2] at value
    cases value
    rw [← range (j - offset) (by omega)]
    congr 1
    omega
  · by_cases old : j < file.size
    · rw [write_outside (by omega) old] at value
      rw [kept j old (by omega)]
      exact shown j old v value
    · unfold Sparse.write at value
      dsimp only at value
      rw [if_neg inside, if_neg old] at value
      exact behind j (by omega) (by omega) v value

theorem Shown.truncate (shown : file.Shown before)
    (kept : ∀ j < min file.size newSize, after j = before j) :
    (file.truncate newSize).Shown after := by
  intro j below v value
  have below : j < min file.size newSize := below
  rw [kept j below]
  exact shown j (by omega) v value

/-- Copying a range of an array that shows a file. -/
theorem Shown.reads (shown : file.Shown before) (inside : offset + len ≤ file.size) :
    file.Reads offset len buf (len, splice buf 0 (slice before offset) len) := by
  unfold Reads
  rw [if_pos inside]
  refine ⟨rfl, fun k low v value => ?_, fun k high => splice_outside (by omega)⟩
  change splice _ _ _ _ _ = _
  rw [splice_inside (Nat.zero_le k) (by omega), Nat.sub_zero, slice_apply]
  exact shown _ (by omega) v value

/-- Only the bytes of the file matter. -/
theorem Shown.congr (shown : file.Shown before) (same : ∀ j < file.size, after j = before j) :
    file.Shown after := by
  intro j below v value
  rw [same j below]
  exact shown j below v value

end Sparse

end TestOs.Library
