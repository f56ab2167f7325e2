/-
# Library.PagedMemory -- memory behind an address translation

Programs name bytes by linear address and a translation, `phys`, says where in
memory they are; two linear addresses may be the same byte.  So what an access
meets is a matter of sets of bytes, `cells`, and not of address arithmetic.
-/
import TestOs.Library.FlatMemory

namespace TestOs.Library

set_option autoImplicit false

namespace Memory

variable (phys : BitVec 32 → BitVec 32)

/-- The bytes in memory of `n` linear addresses from `a` on. -/
def cells (a : BitVec 32) (n : Nat) : Set (BitVec 32) := {c | ∃ k < n, c = phys (a + BitVec.ofNat 32 k)}

/-- No byte is there twice. -/
def Single (a : BitVec 32) (n : Nat) : Prop :=
  ∀ i j, i < n → j < n → phys (a + BitVec.ofNat 32 i) = phys (a + BitVec.ofNat 32 j) → i = j

/-- The little-endian word at a linear address. -/
def peek (m : Memory) (a : BitVec 32) : BitVec 32 := load (fun x => m (phys x)) a

def pokeByte (m : Memory) (a : BitVec 32) (v : BitVec 8) : Memory := Function.update m (phys a) v

/-- A word stored byte by byte. -/
def poke (m : Memory) (a v : BitVec 32) : Memory :=
  pokeByte phys (pokeByte phys (pokeByte phys (pokeByte phys m a (v.setWidth 8))
    (a + 1) ((v >>> 8).setWidth 8)) (a + 2) ((v >>> 16).setWidth 8)) (a + 3) ((v >>> 24).setWidth 8)

/-- `n` bytes copied one by one, upwards. -/
def copyUp (m : Memory) : Nat → (src dst : BitVec 32) → Memory
  | 0, _, _ => m
  | n + 1, src, dst => copyUp (pokeByte phys m dst (m (phys src))) n (src + 1) (dst + 1)

section Words

variable {phys} {m m' : Memory} {a b c v : BitVec 32} {n : Nat}

theorem mem_cells {k : Nat} (below : k < n) : phys (a + BitVec.ofNat 32 k) ∈ cells phys a n :=
  ⟨k, below, rfl⟩

/-- A part of a range. -/
theorem cells_add {offset len : Nat} (inside : offset + len ≤ n) :
    cells phys (a + BitVec.ofNat 32 offset) len ⊆ cells phys a n := by
  rintro _ ⟨k, below, rfl⟩
  refine ⟨offset + k, by omega, ?_⟩
  rw [BitVec.add_assoc, ← BitVec.ofNat_add]

theorem cells_mono {len : Nat} (shorter : len ≤ n) : cells phys a len ⊆ cells phys a n :=
  fun _ ⟨k, below, same⟩ => ⟨k, by omega, same⟩

theorem Single.add {offset len : Nat} (single : Single phys a n) (inside : offset + len ≤ n) :
    Single phys (a + BitVec.ofNat 32 offset) len := by
  intro i j low low' same
  rw [BitVec.add_assoc, BitVec.add_assoc, ← BitVec.ofNat_add, ← BitVec.ofNat_add] at same
  have := single _ _ (by omega) (by omega) same
  omega

/-- Parts of a range that do not meet. -/
theorem Single.disjoint {i j len len' : Nat} (single : Single phys a n) (apart : i + len ≤ j)
    (inside : j + len' ≤ n) :
    Disjoint (cells phys (a + BitVec.ofNat 32 i) len) (cells phys (a + BitVec.ofNat 32 j) len') := by
  rw [Set.disjoint_left]
  rintro _ ⟨k, below, rfl⟩ ⟨k', below', same⟩
  rw [BitVec.add_assoc, BitVec.add_assoc, ← BitVec.ofNat_add, ← BitVec.ofNat_add] at same
  have := single _ _ (by omega) (by omega) same
  omega

theorem poke_outside (outside : c ∉ cells phys a 4) : poke phys m a v c = m c := by
  have other (k : Nat) (below : k < 4) : c ≠ phys (a + BitVec.ofNat 32 k) :=
    fun same => outside ⟨k, below, same⟩
  have zero : c ≠ phys (a + 0) := other 0 (by omega)
  have one : c ≠ phys (a + 1) := other 1 (by omega)
  have two : c ≠ phys (a + 2) := other 2 (by omega)
  have three : c ≠ phys (a + 3) := other 3 (by omega)
  rw [add_zero] at zero
  unfold poke pokeByte
  rw [Function.update_of_ne three, Function.update_of_ne two, Function.update_of_ne one,
    Function.update_of_ne zero]

theorem peek_congr (same : ∀ c ∈ cells phys a 4, m' c = m c) : peek phys m' a = peek phys m a :=
  load_congr fun _ below => same _ (mem_cells below)

theorem peek_poke_of_disjoint (apart : Disjoint (cells phys a 4) (cells phys b 4)) :
    peek phys (poke phys m a v) b = peek phys m b :=
  peek_congr fun _ inside => poke_outside (Set.disjoint_right.1 apart inside)

theorem peek_poke (single : Single phys a 4) : peek phys (poke phys m a v) a = v := by
  have other (i j : Nat) (below : i < 4) (below' : j < 4) (ne : i ≠ j) :
      phys (a + BitVec.ofNat 32 i) ≠ phys (a + BitVec.ofNat 32 j) :=
    fun same => ne (single i j below below' same)
  have at01 : phys (a + 0) ≠ phys (a + 1) := other 0 1 (by omega) (by omega) (by omega)
  have at02 : phys (a + 0) ≠ phys (a + 2) := other 0 2 (by omega) (by omega) (by omega)
  have at03 : phys (a + 0) ≠ phys (a + 3) := other 0 3 (by omega) (by omega) (by omega)
  have at12 : phys (a + 1) ≠ phys (a + 2) := other 1 2 (by omega) (by omega) (by omega)
  have at13 : phys (a + 1) ≠ phys (a + 3) := other 1 3 (by omega) (by omega) (by omega)
  have at23 : phys (a + 2) ≠ phys (a + 3) := other 2 3 (by omega) (by omega) (by omega)
  rw [add_zero] at at01 at02 at03
  have zero : poke phys m a v (phys a) = v.setWidth 8 := by
    unfold poke pokeByte
    rw [Function.update_of_ne at03, Function.update_of_ne at02, Function.update_of_ne at01,
      Function.update_self]
  have one : poke phys m a v (phys (a + 1)) = (v >>> 8).setWidth 8 := by
    unfold poke pokeByte
    rw [Function.update_of_ne at13, Function.update_of_ne at12, Function.update_self]
  have two : poke phys m a v (phys (a + 2)) = (v >>> 16).setWidth 8 := by
    unfold poke pokeByte
    rw [Function.update_of_ne at23, Function.update_self]
  have three : poke phys m a v (phys (a + 3)) = (v >>> 24).setWidth 8 := Function.update_self ..
  -- the bytes are those of a word stored in a memory without translation
  have stored : ∀ k < 4, poke phys m a v (phys (a + BitVec.ofNat 32 k)) =
      store (fun _ => 0) a v (a + BitVec.ofNat 32 k) := by
    intro k below
    rw [store_byte k below]
    interval_cases k
    · rw [show a + BitVec.ofNat 32 0 = a from BitVec.add_zero a, zero]
      rfl
    · exact one
    · exact two
    · exact three
  rw [peek, load_congr stored, load_store]

end Words

section Copy

variable {phys} {m : Memory} {src dst c : BitVec 32} {n : Nat}

theorem next_add (a : BitVec 32) (k : Nat) : a + 1 + BitVec.ofNat 32 k = a + BitVec.ofNat 32 (k + 1) := by
  rw [Nat.add_comm, BitVec.ofNat_add, ← BitVec.add_assoc]
  rfl

theorem copyUp_outside (outside : c ∉ cells phys dst n) : copyUp phys m n src dst c = m c := by
  induction n generalizing m src dst with
  | zero => rfl
  | succ n ih =>
      have rest : c ∉ cells phys (dst + 1) n := by
        rintro ⟨k, below, same⟩
        exact outside ⟨k + 1, by omega, by rw [same, next_add]⟩
      have first : c ≠ phys dst := by
        intro same
        refine outside ⟨0, by omega, ?_⟩
        rw [same, show dst + BitVec.ofNat 32 0 = dst from BitVec.add_zero dst]
      rw [copyUp, ih rest]
      exact Function.update_of_ne first ..

/-- The copy of a range that does not meet it is the range. -/
theorem copyUp_inside (single : Single phys dst n)
    (apart : Disjoint (cells phys src n) (cells phys dst n)) {k : Nat} (below : k < n) :
    copyUp phys m n src dst (phys (dst + BitVec.ofNat 32 k)) =
      m (phys (src + BitVec.ofNat 32 k)) := by
  induction n generalizing m src dst k with
  | zero => omega
  | succ n ih =>
      have single' : Single phys (dst + 1) n := @Single.add phys dst (n + 1) 1 n single (by omega)
      have apart' : Disjoint (cells phys (src + 1) n) (cells phys (dst + 1) n) :=
        apart.mono (@cells_add phys src (n + 1) 1 n (by omega)) (@cells_add phys dst (n + 1) 1 n (by omega))
      have zero (a : BitVec 32) : a + BitVec.ofNat 32 0 = a := BitVec.add_zero a
      rw [copyUp]
      cases k with
      | zero =>
          rw [zero, zero, copyUp_outside]
          · exact Function.update_self ..
          · rintro ⟨k, below', same⟩
            rw [next_add] at same
            have := single 0 (k + 1) (by omega) (by omega) (by rw [zero, same])
            omega
      | succ k =>
          rw [← next_add, ← next_add, ih single' apart' (by omega)]
          refine Function.update_of_ne (fun same => ?_) ..
          refine Set.disjoint_left.1 apart (@mem_cells phys src (n + 1) (k + 1) (by omega)) ⟨0, by omega, ?_⟩
          rw [zero, ← same, next_add]

end Copy

end Memory

end TestOs.Library
