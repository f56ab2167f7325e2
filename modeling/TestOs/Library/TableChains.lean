/-
# Library.TableChains -- linked chains in a table

A table `next` has a value for each cell, which is the next cell of a chain or a
mark of `ended`.  A chain that ends does not come back to a cell (`distinct`), so
a store to one cell of it leaves the links of the others.  That is all that
appending a cell (`append`) and cutting a chain off (`take`) need.
-/
import Mathlib

namespace TestOs.Library

set_option autoImplicit false

/-- The `count` cells of a chain: each has the next one as its value, and the last a mark. -/
structure TableChain {κ : Type} (next : κ → κ) (ended : κ → Prop) (chain : Nat → κ) (count : Nat) :
    Prop where
  some_ : 0 < count
  links : ∀ i, i + 1 < count → next (chain i) = chain (i + 1)
  going : ∀ i, i + 1 < count → ¬ ended (chain (i + 1))
  ends : ended (next (chain (count - 1)))

namespace TableChain

variable {κ ι : Type} {next next' : κ → κ} {ended : κ → Prop} {chain chain' : Nat → κ}
  {count : Nat} {i j : Nat}

/-- A chain that ends does not come back to a cell, nor to one that must have
the same value. -/
theorem injective (isChain : TableChain next ended chain count) (key : κ → ι)
    (value : ∀ a b, key a = key b → next a = next b) (less : i < j) (below : j < count) :
    key (chain i) ≠ key (chain j) := by
  intro same
  have along (m : Nat) (inside : j + m < count) :
      next (chain (i + m)) = next (chain (j + m)) := by
    induction m with
    | zero => exact value _ _ same
    | succ m ih =>
        have before := ih (by omega)
        rw [isChain.links (i + m) (by omega), isChain.links (j + m) (by omega)] at before
        rw [← Nat.add_assoc, ← Nat.add_assoc, before]
  -- the last cell would have a successor
  have last := along (count - 1 - j) (by omega)
  have place : j + (count - 1 - j) = count - 1 := by omega
  rw [place, isChain.links _ (by omega)] at last
  have ends := isChain.ends
  rw [← last] at ends
  exact isChain.going _ (by omega) ends

theorem distinct (isChain : TableChain next ended chain count) (inChain : i < count)
    (inChain' : j < count) (same : chain i = chain j) : i = j := by
  have one {a b : Nat} (less : a < b) (below : b < count) : chain a ≠ chain b :=
    isChain.injective id (fun _ _ eq => congrArg next eq) less below
  rcases Nat.lt_trichotomy i j with less | rfl | less
  · exact absurd same (one less inChain')
  · rfl
  · exact absurd same.symm (one less inChain)

/-- A chain is no longer than there are keys for its cells. -/
theorem count_le (isChain : TableChain next ended chain count) (key : κ → Nat)
    (value : ∀ a b, key a = key b → next a = next b) {bound : Nat}
    (low : ∀ i < count, key (chain i) < bound) : count ≤ bound := by
  have maps : ∀ i ∈ Finset.range count, key (chain i) ∈ Finset.range bound :=
    fun i inChain => Finset.mem_range.2 (low i (Finset.mem_range.1 inChain))
  have inj : Set.InjOn (fun i => key (chain i)) (Finset.range count) := by
    intro i inChain j inChain' same
    simp only [Finset.coe_range, Set.mem_Iio] at inChain inChain'
    rcases Nat.lt_trichotomy i j with less | rfl | less
    · exact (isChain.injective key value less inChain' same).elim
    · rfl
    · exact (isChain.injective key value less inChain same.symm).elim
  have few := Finset.card_le_card_of_injOn _ maps inj
  rwa [Finset.card_range, Finset.card_range] at few

/-- A chain ends in one place. -/
theorem count_unique (isChain : TableChain next ended chain count) {count' : Nat}
    (isChain' : TableChain next ended chain count') : count = count' := by
  have one {a b : Nat} (first : TableChain next ended chain a)
      (second : TableChain next ended chain b) : ¬ a < b := by
    intro less
    have some_ := first.some_
    have ends := first.ends
    rw [second.links (a - 1) (by omega)] at ends
    exact second.going (a - 1) (by omega) ends
  exact le_antisymm (Nat.le_of_not_lt (one isChain' isChain)) (Nat.le_of_not_lt (one isChain isChain'))

/-- Only the values of its own cells matter to a chain. -/
theorem congr_next (isChain : TableChain next ended chain count)
    (same : ∀ i < count, next' (chain i) = next (chain i)) : TableChain next' ended chain count where
  some_ := isChain.some_
  links i inside := by rw [same i (by omega), isChain.links i inside]
  going := isChain.going
  ends := by
    have := isChain.some_
    rw [same (count - 1) (by omega)]
    exact isChain.ends

/-- Only its own places matter to a list of cells. -/
theorem congr_chain (isChain : TableChain next ended chain count)
    (same : ∀ i < count, chain' i = chain i) : TableChain next ended chain' count where
  some_ := isChain.some_
  links i inside := by rw [same i (by omega), same (i + 1) inside, isChain.links i inside]
  going i inside := by
    rw [same (i + 1) inside]
    exact isChain.going i inside
  ends := by
    have := isChain.some_
    rw [same (count - 1) (by omega)]
    exact isChain.ends

/-- A cell with a mark is a chain. -/
theorem single (ends : ended (next (chain 0))) : TableChain next ended chain 1 where
  some_ := Nat.one_pos
  links i inside := by omega
  going i inside := by omega
  ends := ends

/-- A cell with a mark, behind a chain whose last cell has come to hold it. -/
theorem append (isChain : TableChain next ended chain count)
    (same : ∀ i, i + 1 < count → next' (chain i) = next (chain i))
    (linked : next' (chain (count - 1)) = chain count) (going : ¬ ended (chain count))
    (ends : ended (next' (chain count))) : TableChain next' ended chain (count + 1) where
  some_ := Nat.succ_pos count
  links i inside := by
    by_cases last : i + 1 = count
    · have place : i = count - 1 := by omega
      rw [last, place, linked]
    · rw [same i (by omega), isChain.links i (by omega)]
  going i inside := by
    by_cases last : i + 1 = count
    · rwa [last]
    · exact isChain.going i (by omega)
  ends := ends

/-- The start of a chain, with a mark as the value of its last cell. -/
theorem take (isChain : TableChain next ended chain count) (some_ : 0 < i) (inside : i ≤ count)
    (same : ∀ j, j + 1 < i → next' (chain j) = next (chain j))
    (ends : ended (next' (chain (i - 1)))) : TableChain next' ended chain i where
  some_ := some_
  links j below := by rw [same j below, isChain.links j (by omega)]
  going j below := isChain.going j (by omega)
  ends := ends

end TableChain

end TestOs.Library
